import CpuScheduler.Lib.Timeline
import CpuScheduler.RR.Basic

/-!
# The lines of a log as the acts of a processor

A scheduler writes a line into its log when it starts, resumes, stops or finishes a process, and a
sub-scheduler one for a process that is stolen. The first four are acts of a processor
(`CpuScheduler.Timeline`), on the process whose id is in the line.
-/

namespace CpuScheduler

open Timeline

/-- The act that a line tells of, if it tells of one. -/
def LogState.act : LogState → Option Act
  | .start => some .start
  | .resume => some .resume
  | .stop => some .stop
  | .finish => some .finish
  | .stolen => none

/-- The act, and the process it is done to. -/
def LogLine.entry (line : LogLine) : Option (Act × ℤ) := line.lState.act.map fun a => (a, line.id)

/-- The acts that a log tells of, in order. -/
def timeline (log : List LogLine) : List (Act × ℤ) := log.filterMap LogLine.entry

variable {log : List LogLine} {line : LogLine} {c : Cpu ℤ} {a : Act}

theorem timeline_concat (ha : line.lState.act = some a) :
    timeline (log ++ [line]) = timeline log ++ [(a, line.id)] := by
  rw [timeline, List.filterMap_append, List.filterMap_cons_some (b := (a, line.id))]
  · rfl
  · rw [LogLine.entry, ha, Option.map_some]

/-- A line about a process that is stolen tells of no act. -/
theorem timeline_concat_of_none (ha : line.lState.act = none) :
    timeline (log ++ [line]) = timeline log := by
  rw [timeline, List.filterMap_append, List.filterMap_cons_none, List.filterMap_nil,
    List.append_nil]
  · rfl
  · rw [LogLine.entry, ha, Option.map_none]

/-- One more line is one more act. -/
theorem replay_timeline (h : replay (timeline log) = some c) (ha : line.lState.act = some a) :
    replay (timeline (log ++ [line])) = c.step (a, line.id) := by
  rw [timeline_concat ha, replay_concat, h, Option.bind_some]

/-- A line that is not the last one of its process has the time it is written at. -/
theorem RRState.lineOf_time {x : PCB} (h : x.lState ≠ .finish) (t : ℤ) :
    (RRState.lineOf x t).time = t := if_neg fun hc => h hc.1

end CpuScheduler
