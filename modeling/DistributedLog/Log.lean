import DistributedLog.Segment
import Mathlib.Data.List.Sort

/-!
# The log: a list of segments

`Log` is `log.Log` (`internal/log/log.go`) and `Dir` the directory it was
opened on. Every operation takes and returns both, on the error paths too.

The active segment is the last of the list, with one exception that the code
can reach: `Truncate` replaces the list without looking at `activeSegment`,
which then points at a segment that is no longer in it. `detached` is that
segment.
-/

namespace DistributedLog

structure Log where
  config : Config
  segments : List Segment
  detached : Option Segment
deriving DecidableEq, Repr

/-- A log and the directory it is on. -/
abbrev LogState := Log × Dir

namespace Log

/-- `l.activeSegment`; nil as long as no segment has been opened. -/
def activeSegment (l : Log) : Option Segment := l.detached <|> l.segments.getLast?

/-- What `l.activeSegment` points at has changed. -/
def setActive (l : Log) (s : Segment) : Log :=
  match l.detached with
  | some _ => { l with detached := some s }
  | none => { l with segments := l.segments.dropLast ++ [s] }

/-- `Log.newSegment`. -/
def newSegment (l : Log) (d : Dir) (off : UInt64) : Result Unit × Log × Dir :=
  match DistributedLog.newSegment d off l.config with
  | (.error e, d) => (.error e, l, d)
  | (.ok s, d) => (.ok (), { l with segments := l.segments ++ [s], detached := none }, d)

/-- The loop of `Log.setup`: it skips every second base offset. -/
def openAll (l : Log) (d : Dir) : List UInt64 → Result Unit × Log × Dir
  | [] => (.ok (), l, d)
  | [off] => l.newSegment d off
  | off :: _ :: offs =>
      match l.newSegment d off with
      | (.error e, l, d) => (.error e, l, d)
      | (.ok _, l, d) => openAll l d offs

/-- `Log.setup`. The segments that the log has already stay where they are. -/
def setup (l : Log) (d : Dir) : Result Unit × Log × Dir :=
  if !d.present then (.error (.err .notExist), l, d)
  else
    match l.openAll d ((d.names.map baseOfName).insertionSort (· ≤ ·)) with
    | (.error e, l, d) => (.error e, l, d)
    | (.ok _, l, d) =>
        if l.segments.isEmpty then l.newSegment d l.config.initialOffset else (.ok (), l, d)

end Log

/-- The defaults that `NewLog` fills in. -/
def Config.withDefaults (c : Config) : Config :=
  { c with
    maxIndexBytes := if c.maxIndexBytes = 0 then 1024 else c.maxIndexBytes
    maxStoreBytes := if c.maxStoreBytes = 0 then 1024 else c.maxStoreBytes }

/-- `NewLog`. -/
def newLog (d : Dir) (c : Config) : Result Unit × Log × Dir :=
  Log.setup ⟨c.withDefaults, [], none⟩ d

namespace Log

/-- `Log.Append`. -/
def append (E : Env) (l : Log) (d : Dir) (record : Option Record) : Result UInt64 × Log × Dir :=
  match l.activeSegment with
  | none => (.error .panic, l, d)
  | some s =>
      match s.append E d record with
      | (.error e, s, d) => (.error e, l.setActive s, d)
      | (.ok off, s, d) =>
          if s.isMaxed then
            match (l.setActive s).newSegment d (off + 1) with
            | (.error e, l, d) => (.error e, l, d)
            | (.ok _, l, d) => (.ok off, l, d)
          else (.ok off, l.setActive s, d)

/-- The loop of `Log.Read`: the first segment that covers the offset is read. -/
def readIn (E : Env) (d : Dir) (off : UInt64) : List Segment → Result Record × List Segment × Dir
  | [] => (.error (.err (.offsetOutOfRange off)), [], d)
  | s :: ss =>
      if s.baseOffset ≤ off ∧ off < s.nextOffset then
        match s.read E d off with
        | (r, s, d) => (r, s :: ss, d)
      else
        match readIn E d off ss with
        | (r, ss, d) => (r, s :: ss, d)

/-- `Log.Read`. -/
def read (E : Env) (l : Log) (d : Dir) (off : UInt64) : Result Record × Log × Dir :=
  match readIn E d off l.segments with
  | (r, ss, d) => (r, { l with segments := ss }, d)

/-- The loop of `Log.Close`: it stops at the first error. -/
def closeAll (d : Dir) : List Segment → Result Unit × List Segment × Dir
  | [] => (.ok (), [], d)
  | s :: ss =>
      match s.close d with
      | (.error e, s, d) => (.error e, s :: ss, d)
      | (.ok _, s, d) =>
          match closeAll d ss with
          | (r, ss, d) => (r, s :: ss, d)

/-- `Log.Close`. -/
def close (l : Log) (d : Dir) : Result Unit × Log × Dir :=
  match closeAll d l.segments with
  | (r, ss, d) => (r, { l with segments := ss }, d)

/-- `Log.Remove`: `os.RemoveAll` takes the directory itself away. -/
def remove (l : Log) (d : Dir) : Result Unit × Log × Dir :=
  match l.close d with
  | (.error e, l, d) => (.error e, l, d)
  | (.ok _, l, _) => (.ok (), l, Directory.absent)

/-- `Log.Reset`. -/
def reset (l : Log) (d : Dir) : Result Unit × Log × Dir :=
  match l.remove d with
  | (.error e, l, d) => (.error e, l, d)
  | (.ok _, l, d) => l.setup d

/-- `Log.LowestOffset`. -/
def lowestOffset (l : Log) : Result UInt64 :=
  match l.segments.head? with
  | none => .error .panic
  | some s => .ok s.baseOffset

/-- `Log.HighestOffset`. -/
def highestOffset (l : Log) : Result UInt64 :=
  match l.segments.getLast? with
  | none => .error .panic
  | some s => .ok (if s.nextOffset = 0 then 0 else s.nextOffset - 1)

/-- The loop of `Log.Truncate`: each segment, and whether it is kept. -/
def truncateAll (lowest : UInt64) (d : Dir) :
    List Segment → Result Unit × List (Segment × Bool) × Dir
  | [] => (.ok (), [], d)
  | s :: ss =>
      if s.nextOffset ≤ lowest + 1 then
        match s.remove d with
        | (.error e, s, d) => (.error e, (s, true) :: ss.map (·, true), d)
        | (.ok _, s, d) =>
            match truncateAll lowest d ss with
            | (r, ss, d) => (r, (s, false) :: ss, d)
      else
        match truncateAll lowest d ss with
        | (r, ss, d) => (r, (s, true) :: ss, d)

/-- `Log.Truncate`. After an error the list of segments is the old one. -/
def truncate (l : Log) (d : Dir) (lowest : UInt64) : Result Unit × Log × Dir :=
  match truncateAll lowest d l.segments with
  | (.error e, ss, d) => (.error e, { l with segments := ss.map (·.1) }, d)
  | (.ok _, ss, d) =>
      let gone := ss.getLast?.bind fun p => if p.2 then none else some p.1
      (.ok (), { l with
        segments := (ss.filter (·.2)).map (·.1), detached := l.detached <|> gone }, d)

end Log

end DistributedLog
