import CpuScheduler.RR.System

/-!
# When the generator sends a process

`process_generator/process_generator.c` reads its input file into a queue
(`CpuScheduler.Generator.readProcesses`) and then looks at the clock again and again
(`CpuScheduler.Generator.run`). At each tick it sees for the first time it sends from the front
of the queue as long as the front is due, and then the message for the tick; when the queue
is empty it sends the last message.

Only the front is compared with the clock, and nothing sorts the file. So a process waits for
those in front of it, and what it needs to be sent in time is that no tick is observed
between its arrival and a later one in front of it (`CpuScheduler.Generator.InOrder`).

| part of the promise | |
|---|---|
| each process is sent once | `processes_run`, in any order of the lines |
| before the message for the tick | `run_synced`, in any order of the lines |
| the last message is the last | `run_ends`, in any order of the lines |
| in the first tick that it can be | `run_timely_iff`, as far as the lines are in order |
-/

namespace CpuScheduler

namespace Generator

open World

/-- `pg_isEmpty`, `pg_enqueue`, `pg_dequeue` and `pg_peek`. -/
def pgIsEmpty (q : List ProcessData) : Bool := Queue.isEmpty q

def pgEnqueue (q : List ProcessData) (p : ProcessData) : List ProcessData := Queue.enqueue q p

def pgDequeue (q : List ProcessData) : Except Fault (ProcessData × List ProcessData) :=
  Queue.dequeue q

def pgPeek (q : List ProcessData) : Except Fault ProcessData := Queue.peek q

/-- The loop over the lines of the input file, each of which has its six numbers. -/
def readProcesses (lines : List ProcessData) : List ProcessData :=
  lines.foldl (fun q p => if p.runtime > 0 then pgEnqueue q { p with mtype := 1 } else q) []

/-- The loop over the front of the queue: what is sent at a tick, and what is left. -/
def sendDue (currentTime : ℤ) : List ProcessData → List ProcessData × List ProcessData
  | [] => ([], [])
  | p :: q =>
    if p.arrival ≤ currentTime then (p :: (sendDue currentTime q).1, (sendDue currentTime q).2)
    else ([], p :: q)

/-- The messages that are sent, each with the tick at which it is, when the clock shows these
values. Without another look at the clock the loop goes on. -/
def run (lastTime : ℤ) : List ProcessData → List ℤ → List (ℤ × ProcessData)
  | [], _ => [(lastTime, lastMsg)]
  | _ :: _, [] => []
  | p :: q, currentTime :: ts =>
    if currentTime = lastTime then run lastTime (p :: q) ts
    else (sendDue currentTime (p :: q)).1.map (currentTime, ·) ++
      (currentTime, syncMsg currentTime) :: run currentTime (sendDue currentTime (p :: q)).2 ts

/-- The whole of it: the file has been read, and `lastTime` is -1. -/
def generate (lines : List ProcessData) (ts : List ℤ) : List (ℤ × ProcessData) :=
  run (-1) (readProcesses lines) ts

variable {p : ProcessData} {q : List ProcessData} {t last : ℤ} {ts seen : List ℤ}

/-- One turn of the loop over the front, in terms of the operations of the queue. The faults do
not happen. -/
theorem sendDue_eq (t : ℤ) (q : List ProcessData) : sendDue t q =
    if pgIsEmpty q then ([], q) else
    match pgPeek q, pgDequeue q with
    | .ok a, .ok (p, q') =>
      if a.arrival ≤ t then (p :: (sendDue t q').1, (sendDue t q').2) else ([], q)
    | _, _ => ([], q) := by
  cases q with
  | nil => rfl
  | cons p q => rfl

/-! ### Reading the file -/

/-- The queue holds the processes with a positive runtime, in the order of the lines. -/
theorem readProcesses_eq (lines : List ProcessData) : readProcesses lines =
    (lines.filter fun p => p.runtime > 0).map fun p => { p with mtype := 1 } := by
  have hfold : ∀ (lines q : List ProcessData), lines.foldl (fun q p =>
      if p.runtime > 0 then pgEnqueue q { p with mtype := 1 } else q) q =
      q ++ (lines.filter fun p => p.runtime > 0).map fun p => { p with mtype := 1 } := by
    intro lines
    induction lines with
    | nil => exact fun q => (List.append_nil q).symm
    | cons p lines ih =>
      intro q
      rw [List.foldl_cons, ih]
      by_cases h : p.runtime > 0
      · rw [if_pos h, List.filter_cons_of_pos (by simpa using h), pgEnqueue, Queue.enqueue,
          List.append_assoc]
        rfl
      · rw [if_neg h, List.filter_cons_of_neg (by simpa using h)]
  exact (hfold lines []).trans (List.nil_append _)

theorem mtype_readProcesses {lines : List ProcessData} (h : p ∈ readProcesses lines) :
    p.mtype = 1 := by
  rw [readProcesses_eq] at h
  obtain ⟨p', -, rfl⟩ := List.mem_map.mp h
  rfl

/-! ### One tick -/

theorem sendDue_append (t : ℤ) (q : List ProcessData) :
    (sendDue t q).1 ++ (sendDue t q).2 = q := by
  induction q with
  | nil => rfl
  | cons p q ih =>
    rw [sendDue]
    split_ifs
    · rw [List.cons_append, ih]
    · rfl

/-- What is sent is due. -/
theorem arrival_of_sent (h : p ∈ (sendDue t q).1) : p.arrival ≤ t := by
  induction q with
  | nil => exact nomatch h
  | cons a q ih =>
    rw [sendDue] at h
    split_ifs at h with ha
    · rcases List.mem_cons.mp h with rfl | h
      · exact ha
      · exact ih h
    · exact nomatch h

/-- The front of what is left is not. -/
theorem lt_arrival_of_front (h : (sendDue t q).2.head? = some p) : t < p.arrival := by
  induction q with
  | nil => exact nomatch h
  | cons a q ih =>
    rw [sendDue] at h
    split_ifs at h with ha
    · exact ih h
    · exact Option.some.inj h ▸ not_le.mp ha

/-! ### What holds of any file -/

/-- The processes among the messages. -/
def processes (out : List (ℤ × ProcessData)) : List ProcessData :=
  (out.map Prod.snd).filter fun d => d.mtype = 1

/-- The clock reaches the arrival of everything in the queue. -/
def Reached (ts : List ℤ) (q : List ProcessData) : Prop := ∀ p ∈ q, ∃ t ∈ ts, p.arrival ≤ t

theorem Reached.left (h : Reached (t :: ts) q) (hts : ∀ u ∈ ts, t < u) :
    Reached ts (sendDue t q).2 := by
  intro p hp
  -- the front is reached later than at `t`, and then everything is that was reached at `t`
  obtain ⟨a, rest, hrest⟩ := List.exists_cons_of_ne_nil (List.ne_nil_of_mem hp)
  have hsub : ∀ b ∈ (sendDue t q).2, b ∈ q := fun b hb => by
    rw [← sendDue_append t q]
    exact List.mem_append_right _ hb
  have hfront : t < a.arrival := lt_arrival_of_front (by rw [hrest]; rfl)
  have hlater : ∀ b ∈ (sendDue t q).2, t < b.arrival → ∃ u ∈ ts, b.arrival ≤ u := by
    intro b hb hlt
    obtain ⟨u, hu, hbu⟩ := h b (hsub b hb)
    rcases List.mem_cons.mp hu with rfl | hu
    · exact absurd hbu hlt.not_ge
    · exact ⟨u, hu, hbu⟩
  rcases le_or_gt p.arrival t with hpt | hpt
  · obtain ⟨u, hu, -⟩ := hlater a (by rw [hrest]; exact List.mem_cons_self) hfront
    exact ⟨u, hu, hpt.trans (hts u hu).le⟩
  · exact hlater p hp hpt

theorem run_cons (h : last < t) : run last (p :: q) (t :: ts) =
    (sendDue t (p :: q)).1.map (t, ·) ++
      (t, syncMsg t) :: run t (sendDue t (p :: q)).2 ts := by
  rw [run, if_neg h.ne']

theorem processes_append (l r : List (ℤ × ProcessData)) :
    processes (l ++ r) = processes l ++ processes r := by
  rw [processes, List.map_append, List.filter_append]
  rfl

/-- What is sent at a tick. -/
theorem processes_sent (hq : ∀ p ∈ q, p.mtype = 1) :
    processes ((sendDue t q).1.map (t, ·)) = (sendDue t q).1 := by
  have hid : ((sendDue t q).1.map (t, ·)).map Prod.snd = (sendDue t q).1 := by
    rw [List.map_map]
    exact List.map_id _
  rw [processes, hid]
  refine List.filter_eq_self.mpr fun d hd => decide_eq_true (hq d ?_)
  rw [← sendDue_append t q]
  exact List.mem_append_left _ hd

theorem mtype_left (hq : ∀ p ∈ q, p.mtype = 1) : ∀ p ∈ (sendDue t q).2, p.mtype = 1 := by
  intro p hp
  refine hq p ?_
  rw [← sendDue_append t q]
  exact List.mem_append_right _ hp

/-- **Each process is sent once**, in the order of the file. -/
theorem processes_run (hq : ∀ p ∈ q, p.mtype = 1) (hts : (last :: ts).Pairwise (· < ·))
    (hr : Reached ts q) : processes (run last q ts) = q := by
  induction ts generalizing last q with
  | nil =>
    cases q with
    | nil => rfl
    | cons p q =>
      obtain ⟨t, ht, -⟩ := hr p List.mem_cons_self
      exact nomatch ht
  | cons t ts ih =>
    cases q with
    | nil => rfl
    | cons p q =>
      obtain ⟨hlast, hts⟩ := List.pairwise_cons.mp hts
      obtain ⟨ht, -⟩ := List.pairwise_cons.mp hts
      rw [run_cons (hlast t List.mem_cons_self), processes_append, processes_sent hq]
      have hsync : processes ((t, syncMsg t) :: run t (sendDue t (p :: q)).2 ts) =
          processes (run t (sendDue t (p :: q)).2 ts) := rfl
      rw [hsync, ih (mtype_left hq) hts (hr.left ht), sendDue_append]

/-- The processes are sent at ticks that are observed. -/
theorem mem_run {x : ℤ × ProcessData} (h : x ∈ run last q ts) (h1 : x.2.mtype = 1) :
    x.1 ∈ ts ∧ (x.1, syncMsg x.1) ∈ run last q ts := by
  induction ts generalizing last q with
  | nil =>
    cases q with
    | nil =>
      rw [run, List.mem_singleton] at h
      rw [h] at h1
      exact absurd (show (5 : ℤ) = 1 from h1) (by decide)
    | cons p q => exact nomatch h
  | cons t ts ih =>
    cases q with
    | nil =>
      rw [run, List.mem_singleton] at h
      rw [h] at h1
      exact absurd (show (5 : ℤ) = 1 from h1) (by decide)
    | cons p q =>
      rw [run] at h ⊢
      split_ifs at h ⊢ with heq
      · obtain ⟨hmem, hsync⟩ := ih h
        exact ⟨List.mem_cons_of_mem t hmem, hsync⟩
      · rcases List.mem_append.mp h with h | h
        · obtain ⟨d, -, rfl⟩ := List.mem_map.mp h
          exact ⟨List.mem_cons_self, List.mem_append_right _ List.mem_cons_self⟩
        · rcases List.mem_cons.mp h with rfl | h
          · exact absurd (show (2 : ℤ) = 1 from h1) (by decide)
          · obtain ⟨hmem, hsync⟩ := ih h
            exact ⟨List.mem_cons_of_mem t hmem,
              List.mem_append_right _ (List.mem_cons_of_mem _ hsync)⟩

/-- **Before the message for the tick**: no process is sent at a tick after it. -/
theorem run_synced (hq : ∀ p ∈ q, p.mtype = 1) (hts : (last :: ts).Pairwise (· < ·)) :
    (run last q ts).Pairwise fun a b => a.2 = syncMsg b.1 → b.2.mtype ≠ 1 := by
  induction ts generalizing last q with
  | nil =>
    cases q with
    | nil => exact List.pairwise_singleton _ _
    | cons p q => exact List.Pairwise.nil
  | cons t ts ih =>
    cases q with
    | nil => exact List.pairwise_singleton _ _
    | cons p q =>
      obtain ⟨hlast, hts⟩ := List.pairwise_cons.mp hts
      obtain ⟨ht, -⟩ := List.pairwise_cons.mp hts
      have hsent : ∀ a ∈ (sendDue t (p :: q)).1.map (t, ·), a.2.mtype = 1 := by
        intro a ha
        obtain ⟨d, hd, rfl⟩ := List.mem_map.mp ha
        refine hq d ?_
        rw [← sendDue_append t (p :: q)]
        exact List.mem_append_left _ hd
      have hno : ∀ a ∈ (sendDue t (p :: q)).1.map (t, ·), ∀ u, a.2 ≠ syncMsg u := by
        intro a ha u he
        have h1 := hsent a ha
        rw [he] at h1
        exact absurd (show (2 : ℤ) = 1 from h1) (by decide)
      rw [run_cons (hlast t List.mem_cons_self)]
      refine List.pairwise_append.mpr ⟨?_, List.pairwise_cons.mpr ⟨fun b hb he h1 => ?_,
        ih (mtype_left hq) hts⟩, fun a ha b _ he => absurd he (hno a ha b.1)⟩
      · exact List.pairwise_of_forall_mem_list fun a ha b _ he => absurd he (hno a ha b.1)
      · have htb : t = b.1 := congrArg ProcessData.arrival he
        exact absurd (ht b.1 (mem_run hb h1).1) (htb ▸ lt_irrefl t)

/-- **The last message is the last**, and there is no other one of its type. -/
theorem run_ends (hq : ∀ p ∈ q, p.mtype = 1) (hts : (last :: ts).Pairwise (· < ·))
    (hr : Reached ts q) : ∃ pre t, run last q ts = pre ++ [(t, lastMsg)] ∧
      ∀ x ∈ pre, x.2.mtype ≠ 5 := by
  induction ts generalizing last q with
  | nil =>
    cases q with
    | nil => exact ⟨[], last, rfl, List.forall_mem_nil _⟩
    | cons p q =>
      obtain ⟨t, ht, -⟩ := hr p List.mem_cons_self
      exact nomatch ht
  | cons t ts ih =>
    cases q with
    | nil => exact ⟨[], last, rfl, List.forall_mem_nil _⟩
    | cons p q =>
      obtain ⟨hlast, hts⟩ := List.pairwise_cons.mp hts
      obtain ⟨ht, -⟩ := List.pairwise_cons.mp hts
      obtain ⟨pre, u, hrun, hpre⟩ := ih (mtype_left hq) hts (hr.left ht)
      refine ⟨(sendDue t (p :: q)).1.map (t, ·) ++ (t, syncMsg t) :: pre, u, ?_, fun x hx => ?_⟩
      · rw [run_cons (hlast t List.mem_cons_self), hrun, List.append_assoc, List.cons_append]
      · rcases List.mem_append.mp hx with hx | hx
        · obtain ⟨d, hd, rfl⟩ := List.mem_map.mp hx
          have h1 := hq d (by rw [← sendDue_append t (p :: q)]; exact List.mem_append_left _ hd)
          rw [h1]
          decide
        · rcases List.mem_cons.mp hx with rfl | hx
          · exact (show (2 : ℤ) ≠ 5 by decide)
          · exact hpre x hx

/-- The types of the messages. -/
theorem mtype_of_run {x : ℤ × ProcessData} (hq : ∀ p ∈ q, p.mtype = 1) (hx : x ∈ run last q ts) :
    x.2.mtype = 1 ∨ x.2.mtype = 2 ∨ x.2.mtype = 5 := by
  induction ts generalizing last q with
  | nil =>
    cases q with
    | nil => exact Or.inr (Or.inr (by rw [List.mem_singleton.mp hx]; rfl))
    | cons p q => exact nomatch hx
  | cons t ts ih =>
    cases q with
    | nil => exact Or.inr (Or.inr (by rw [List.mem_singleton.mp hx]; rfl))
    | cons p q =>
      rw [run] at hx
      split_ifs at hx with heq
      · exact ih hq hx
      · rcases List.mem_append.mp hx with hx | hx
        · obtain ⟨d, hd, rfl⟩ := List.mem_map.mp hx
          refine Or.inl (hq d ?_)
          rw [← sendDue_append t (p :: q)]
          exact List.mem_append_left _ hd
        · rcases List.mem_cons.mp hx with rfl | hx
          · exact Or.inr (Or.inl rfl)
          · exact ih (mtype_left hq) hx

/-- A message of type 2 is the one for the tick at which it is sent. -/
theorem mem_run_sync {x : ℤ × ProcessData} (hq : ∀ p ∈ q, p.mtype = 1) (hx : x ∈ run last q ts)
    (h2 : x.2.mtype = 2) : x.2.arrival ∈ ts := by
  induction ts generalizing last q with
  | nil =>
    cases q with
    | nil =>
      rw [List.mem_singleton.mp hx] at h2
      exact absurd (show (5 : ℤ) = 2 from h2) (by decide)
    | cons p q => exact nomatch hx
  | cons t ts ih =>
    cases q with
    | nil =>
      rw [List.mem_singleton.mp hx] at h2
      exact absurd (show (5 : ℤ) = 2 from h2) (by decide)
    | cons p q =>
      rw [run] at hx
      split_ifs at hx with heq
      · exact List.mem_cons_of_mem t (ih hq hx)
      · rcases List.mem_append.mp hx with hx | hx
        · obtain ⟨d, hd, rfl⟩ := List.mem_map.mp hx
          have h1 := hq d (by rw [← sendDue_append t (p :: q)]; exact List.mem_append_left _ hd)
          exact absurd (h1.symm.trans h2) (by decide)
        · rcases List.mem_cons.mp hx with rfl | hx
          · exact List.mem_cons_self
          · exact List.mem_cons_of_mem t (ih (mtype_left hq) hx)

/-- **The messages of type 2 are for increasing ticks.** -/
theorem run_rising (hq : ∀ p ∈ q, p.mtype = 1) (hts : (last :: ts).Pairwise (· < ·)) :
    ((run last q ts).filter fun x => x.2.mtype = 2).Pairwise
      fun a b => a.2.arrival < b.2.arrival := by
  induction ts generalizing last q with
  | nil =>
    cases q with
    | nil => exact List.Pairwise.nil
    | cons p q => exact List.Pairwise.nil
  | cons t ts ih =>
    cases q with
    | nil => exact List.Pairwise.nil
    | cons p q =>
      obtain ⟨hlast, hts⟩ := List.pairwise_cons.mp hts
      obtain ⟨ht, -⟩ := List.pairwise_cons.mp hts
      have hnone : (((sendDue t (p :: q)).1.map (t, ·)).filter fun x => x.2.mtype = 2) = [] := by
        refine List.filter_eq_nil_iff.mpr fun x hx => ?_
        obtain ⟨d, hd, rfl⟩ := List.mem_map.mp hx
        have h1 := hq d (by rw [← sendDue_append t (p :: q)]; exact List.mem_append_left _ hd)
        exact fun h2 => absurd (h1.symm.trans (of_decide_eq_true h2)) (by decide)
      rw [run_cons (hlast t List.mem_cons_self), List.filter_append, hnone, List.nil_append,
        List.filter_cons_of_pos rfl]
      refine List.pairwise_cons.mpr ⟨fun x hx => ?_, ih (mtype_left hq) hts⟩
      obtain ⟨hx, h2⟩ := List.mem_filter.mp hx
      exact ht _ (mem_run_sync (mtype_left hq) hx (of_decide_eq_true h2))

/-! ### In time -/

/-- The first tick observed that is not before `a`. -/
def FirstFrom (ts : List ℤ) (a t : ℤ) : Prop := t ∈ ts ∧ a ≤ t ∧ ∀ u ∈ ts, a ≤ u → t ≤ u

/-- Each process is sent at the first tick that is not before its arrival. -/
def Timely (ts : List ℤ) (out : List (ℤ × ProcessData)) : Prop :=
  ∀ x ∈ out, x.2.mtype = 1 → FirstFrom ts x.2.arrival x.1

/-- **No tick is observed between the arrival of a process and a later one in front of it.** -/
def InOrder (ts : List ℤ) (q : List ProcessData) : Prop :=
  q.Pairwise fun a b => ∀ t ∈ ts, ¬(b.arrival ≤ t ∧ t < a.arrival)

/-- A queue sorted by arrival is in order, whatever ticks are observed. -/
theorem InOrder.of_sorted (h : q.Pairwise fun a b => a.arrival ≤ b.arrival) : InOrder ts q :=
  h.imp fun hab _ _ hu => absurd (hu.1.trans_lt hu.2) hab.not_gt

/-- After a tick: nothing is late of what is left, and it is in order, exactly when the queue was
in order before. What has been sent at the tick makes nothing wait any more. -/
theorem inOrder_iff (hts : ∀ u ∈ ts, t < u) : InOrder (t :: ts) q ↔
    InOrder ts (sendDue t q).2 ∧ ∀ p ∈ (sendDue t q).2, t < p.arrival := by
  constructor
  · intro h
    rw [← sendDue_append t q] at h
    obtain ⟨-, hleft, -⟩ := List.pairwise_append.mp h
    refine ⟨hleft.imp fun hab u hu => hab u (List.mem_cons_of_mem t hu), fun p hp => ?_⟩
    -- the front is not due, and nothing behind it is due before it
    cases hrest : (sendDue t q).2 with
    | nil =>
      rw [hrest] at hp
      exact nomatch hp
    | cons a rest =>
      have hfront : t < a.arrival := lt_arrival_of_front (by rw [hrest]; rfl)
      rw [hrest] at hp hleft
      rcases List.mem_cons.mp hp with rfl | hp
      · exact hfront
      · by_contra hlate
        exact (List.pairwise_cons.mp hleft).1 p hp t List.mem_cons_self ⟨not_lt.mp hlate, hfront⟩
  · rintro ⟨hleft, hlate⟩
    -- a process that has been sent does not arrive after any of the ticks
    have hsent : ∀ a ∈ (sendDue t q).1, ∀ b : ProcessData, ∀ u ∈ t :: ts,
        ¬(b.arrival ≤ u ∧ u < a.arrival) := by
      rintro a ha b u hu ⟨-, hlt⟩
      have hat := arrival_of_sent ha
      rcases List.mem_cons.mp hu with rfl | hu
      · exact absurd hlt hat.not_gt
      · exact absurd hlt (hat.trans (hts u hu).le).not_gt
    have happ : InOrder (t :: ts) ((sendDue t q).1 ++ (sendDue t q).2) := by
      refine List.pairwise_append.mpr
        ⟨List.pairwise_of_forall_mem_list fun a ha b _ => hsent a ha b,
        hleft.imp_of_mem fun {a b} _ hb hab u hu => ?_, fun a ha b _ => hsent a ha b⟩
      rcases List.mem_cons.mp hu with rfl | hu
      · exact fun h => absurd h.1 (hlate b hb).not_ge
      · exact hab u hu
    rwa [sendDue_append] at happ

theorem timely_append {l r : List (ℤ × ProcessData)} :
    Timely ts (l ++ r) ↔ Timely ts l ∧ Timely ts r :=
  List.forall_mem_append

/-- What is sent at a tick is sent in time, exactly when it was not late before. -/
theorem timely_sent_iff (hq : ∀ p ∈ q, p.mtype = 1) (hts : ∀ u ∈ ts, t < u)
    (hseen : ∀ u ∈ seen, u < t) : Timely (seen ++ t :: ts) ((sendDue t q).1.map (t, ·)) ↔
      ∀ p ∈ (sendDue t q).1, ∀ u ∈ seen, u < p.arrival := by
  constructor
  · intro h p hp u hu
    have h1 := hq p (by rw [← sendDue_append t q]; exact List.mem_append_left _ hp)
    by_contra hlate
    have htu := (h (t, p) (List.mem_map_of_mem hp) h1).2.2 u (List.mem_append_left _ hu)
      (not_lt.mp hlate)
    exact absurd htu (hseen u hu).not_ge
  · rintro h x hx -
    obtain ⟨p, hp, rfl⟩ := List.mem_map.mp hx
    refine ⟨List.mem_append_right _ List.mem_cons_self, arrival_of_sent hp, fun u hu hpu => ?_⟩
    rcases List.mem_append.mp hu with hu | hu
    · exact absurd hpu (h p hp u hu).not_ge
    · rcases List.mem_cons.mp hu with rfl | hu
      · exact le_rfl
      · exact (hts u hu).le

/-- The last message is no process. -/
theorem timely_last {l : List ℤ} : Timely l [(last, lastMsg)] := by
  rintro x hx h1
  rw [List.mem_singleton.mp hx] at h1
  exact absurd (show (5 : ℤ) = 1 from h1) (by decide)

theorem timely_sync_cons {l : List ℤ} {out : List (ℤ × ProcessData)} :
    Timely l ((t, syncMsg t) :: out) ↔ Timely l out :=
  List.forall_mem_cons.trans
    (and_iff_right fun h1 => absurd (show (2 : ℤ) = 1 from h1) (by decide))

/-- **In time**: after some ticks have been observed, the processes that are left are sent in
time exactly when they are in order and none of them is late. -/
theorem run_timely_iff (hq : ∀ p ∈ q, p.mtype = 1) (hts : (last :: ts).Pairwise (· < ·))
    (hseen : ∀ u ∈ seen, u ≤ last) (hr : Reached ts q) :
    Timely (seen ++ ts) (run last q ts) ↔
      InOrder ts q ∧ ∀ p ∈ q, ∀ u ∈ seen, u < p.arrival := by
  induction ts generalizing last q seen with
  | nil =>
    cases q with
    | nil => exact iff_of_true timely_last ⟨List.Pairwise.nil, List.forall_mem_nil _⟩
    | cons p q =>
      obtain ⟨t, ht, -⟩ := hr p List.mem_cons_self
      exact nomatch ht
  | cons t ts ih =>
    cases q with
    | nil => exact iff_of_true timely_last ⟨List.Pairwise.nil, List.forall_mem_nil _⟩
    | cons p q =>
      obtain ⟨hlast, hts⟩ := List.pairwise_cons.mp hts
      obtain ⟨ht, -⟩ := List.pairwise_cons.mp hts
      have hseen' : ∀ u ∈ seen, u < t := fun u hu =>
        (hseen u hu).trans_lt (hlast t List.mem_cons_self)
      have hseen'' : ∀ u ∈ seen ++ [t], u ≤ t := fun u hu => by
        rcases List.mem_append.mp hu with hu | hu
        · exact (hseen' u hu).le
        · exact (List.mem_singleton.mp hu).le
      have hrest := ih (mtype_left hq) hts hseen'' (hr.left ht)
      rw [List.append_assoc, List.singleton_append] at hrest
      rw [run_cons (hlast t List.mem_cons_self), timely_append, timely_sent_iff hq ht hseen',
        timely_sync_cons, hrest, inOrder_iff ht]
      -- a process of the queue is sent at this tick or left
      have hmem : ∀ b, b ∈ p :: q ↔ b ∈ (sendDue t (p :: q)).1 ∨ b ∈ (sendDue t (p :: q)).2 :=
        fun b => by rw [← List.mem_append, sendDue_append]
      constructor
      · rintro ⟨hsent, hin, hleft⟩
        refine ⟨⟨hin, fun b hb => hleft b hb t (List.mem_append_right _ List.mem_cons_self)⟩,
          fun b hb u hu => ?_⟩
        rcases (hmem b).mp hb with hb | hb
        · exact hsent b hb u hu
        · exact hleft b hb u (List.mem_append_left _ hu)
      · rintro ⟨⟨hin, hlate⟩, hall⟩
        refine ⟨fun b hb => hall b ((hmem b).mpr (Or.inl hb)), hin, fun b hb u hu => ?_⟩
        rcases List.mem_append.mp hu with hu | hu
        · exact hall b ((hmem b).mpr (Or.inr hb)) u hu
        · exact (List.mem_singleton.mp hu) ▸ hlate b hb

/-! ### The promise -/

/-- What the generator promises of the messages that it sends for a file. -/
structure Dispatches (lines : List ProcessData) (ts : List ℤ) (out : List (ℤ × ProcessData)) :
    Prop where
  /-- Each process with a positive runtime is sent exactly once. -/
  once : (processes out).Perm (readProcesses lines)
  /-- It is sent at the first tick observed that is not before its arrival. -/
  timely : Timely ts out
  /-- The message for that tick is sent as well, -/
  answered : ∀ x ∈ out, x.2.mtype = 1 → (x.1, syncMsg x.1) ∈ out
  /-- and not before the process. -/
  synced : out.Pairwise fun a b => a.2 = syncMsg b.1 → b.2.mtype ≠ 1
  /-- The last message is sent after all of them. -/
  ends : ∃ pre t, out = pre ++ [(t, lastMsg)] ∧ ∀ x ∈ pre, x.2.mtype ≠ 5

/-- **The generator dispatches at arrival time as far as the file is in order**: it keeps its
promise exactly when no tick is observed between the arrival of a process and a later one in
front of it. -/
theorem generate_dispatches_iff (lines : List ProcessData) (ts : List ℤ)
    (hts : ((-1) :: ts).Pairwise (· < ·)) (hr : Reached ts (readProcesses lines)) :
    Dispatches lines ts (generate lines ts) ↔ InOrder ts (readProcesses lines) := by
  have hq : ∀ p ∈ readProcesses lines, p.mtype = 1 := fun _ => mtype_readProcesses
  have htimely : Timely ts (generate lines ts) ↔ InOrder ts (readProcesses lines) :=
    (run_timely_iff hq hts (List.forall_mem_nil _) hr).trans
      (and_iff_left fun _ _ => List.forall_mem_nil _)
  constructor
  · exact fun h => htimely.mp h.timely
  · exact fun h =>
      { once := List.Perm.of_eq (processes_run hq hts hr)
        timely := htimely.mpr h
        answered := fun x hx h1 => (mem_run hx h1).2
        synced := run_synced hq hts
        ends := run_ends hq hts hr }

/-- A process with this identifier, arrival and runtime, as a line of the file. -/
def line (id arrival runtime : ℤ) : ProcessData :=
  { mtype := 0, id := id, arrival := arrival, runtime := runtime, priority := 1, base := 0,
    limit := 10 }

/-- Two processes on lines in order are dispatched, the first of them at tick 2 because the clock
has not been observed at 1. Where they change places, they are in order only if it has not been
observed at 1 to 3 at all. -/
theorem generate_dispatches_iff_two :
    Dispatches [line 1 1 3, line 2 4 0, line 3 4 2] [0, 2, 4]
      (generate [line 1 1 3, line 2 4 0, line 3 4 2] [0, 2, 4]) ∧
    ¬Dispatches [line 3 4 2, line 1 1 3] [0, 2, 4] (generate [line 3 4 2, line 1 1 3] [0, 2, 4]) ∧
    Dispatches [line 3 4 2, line 1 1 3] [0, 4] (generate [line 3 4 2, line 1 1 3] [0, 4]) := by
  refine ⟨(generate_dispatches_iff _ _ ?_ ?_).mpr ?_,
    fun h => ?_, (generate_dispatches_iff _ _ ?_ ?_).mpr ?_⟩
  case refine_4 =>
    have horder := (generate_dispatches_iff [line 3 4 2, line 1 1 3] [0, 2, 4] (by decide)
      (by unfold Reached; decide)).mp h
    revert horder
    unfold InOrder
    decide
  case refine_2 | refine_6 => unfold Reached; decide
  case refine_3 | refine_7 => unfold InOrder; decide
  all_goals decide

/-- **A line out of order is sent late**: process 2 arrives at tick 1, behind a process that
arrives at tick 5, and is sent at tick 5 although the clock has shown each tick. -/
theorem not_dispatches : ((-1) :: [0, 1, 2, 3, 4, 5]).Pairwise (· < ·) ∧
    Reached [0, 1, 2, 3, 4, 5] (readProcesses [line 1 5 3, line 2 1 3]) ∧
    ¬Dispatches [line 1 5 3, line 2 1 3] [0, 1, 2, 3, 4, 5]
      (generate [line 1 5 3, line 2 1 3] [0, 1, 2, 3, 4, 5]) := by
  refine ⟨by decide, by unfold Reached; decide, fun h => ?_⟩
  have hsent : (5, { line 2 1 3 with mtype := 1 }) ∈
      generate [line 1 5 3, line 2 1 3] [0, 1, 2, 3, 4, 5] := by decide
  have hfirst : (5 : ℤ) ≤ 1 := (h.timely _ hsent rfl).2.2 1 (by decide) (by decide)
  exact absurd hfirst (by decide)

end Generator

end CpuScheduler
