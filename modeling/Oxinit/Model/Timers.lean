import Oxinit.Model.Machine

/-!
# Deadlines

`Timers`: one heap and one timerfd for each clock. What a call answers is
paired with the state it leaves; an error of `timerfd_settime` is reported
with the heaps already changed, as in the source.
-/

namespace Oxinit

open Framework (Deadline)

namespace Timers

/-- How long it is to the earliest deadline, which the timerfd is set to; nothing
disarms it. A deadline that has passed is nudged to the smallest delay. -/
def delay (t : Timers) (now : Nat) : Option Nat := t.heap.head?.map fun e => max (e.due - now) 1

/-- The realtime timerfd is set to the earliest moment as it is. Zero disarms
that one too. -/
def earliestWall (t : Timers) : Option Nat := (t.wallHeap.head?.map (·.due)).filter (· ≠ 0)

end Timers

namespace Supervisor

/-- `timerfd_settime`, to a delay from when it is called. -/
def setTimer (w : World) (delay : Option Nat) (s : Supervisor) : Bool × Supervisor :=
  let ok := (w s.ticks).timerfd
  let s := s.turn w
  (ok, if ok then s.update (·.setFd (delay.map (s.kernel.now + ·))) else s)

/-- Point the timerfd at the earliest deadline, or disarm it. The clock is read
for that first, and what the timerfd is set to is a delay. -/
def armTimer (w : World) (s : Supervisor) : Bool × Supervisor :=
  let s := s.turn w
  setTimer w (s.timers.delay s.kernel.now) s

/-- Point the realtime timerfd at the earliest wall-clock moment. -/
def armWall (w : World) (s : Supervisor) : Bool × Supervisor :=
  let ok := (w s.ticks).timerfd
  let s := s.turn w
  (ok, if ok then s.update (·.setWallFd s.timers.earliestWall) else s)

/-- Schedule `alarm` for `delay` from now. -/
def schedule (w : World) (delay : Nat) (alarm : Alarm) (s : Supervisor) : Bool × Supervisor :=
  let tie := (w s.ticks).tie
  let s := (s.note (.schedule alarm delay)).turn w
  armTimer w (s.update (·.push tie { due := s.kernel.now + delay, alarm }))

/-- Schedule `alarm` for a moment on the wall clock. -/
def scheduleAt (w : World) (moment : Nat) (alarm : Alarm) (s : Supervisor) : Bool × Supervisor :=
  let tie := (w s.ticks).tie
  armWall w ((s.note (.scheduleAt alarm moment)).update (·.pushWall tie { due := moment, alarm }))

/-- Take everything whose deadline has passed; an error leaves nothing to
handle. -/
def expired (w : World) (s : Supervisor) : Supervisor :=
  let s := s.turn w
  let r := armTimer w (s.update (·.takeExpired s.kernel.now))
  if r.1 then r.2 else r.2.update (·.setFired [])

/-- Take everything on the wall clock whose moment has passed at `now`. A
clock step takes nothing from the heap. -/
def wallExpired (w : World) (now : Nat) (s : Supervisor) : Supervisor :=
  let cancelled := (w s.ticks).cancelled
  let s := s.turn w
  if cancelled then (armWall w s).2.update (·.setFired [])
  else
    let r := armWall w (s.update (·.takeWallExpired now))
    if r.1 then r.2 else r.2.update (·.setFired [])

end Supervisor

end Oxinit
