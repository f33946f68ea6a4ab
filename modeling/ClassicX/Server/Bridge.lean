import ClassicX.Lib.Runs

/-! # The serial bridge (`localsrv.py`)

`loop` gives what the remote host sends to the server, which answers every request over the serial port, and
sends the answer back. It reads the serial port in pieces of any size, and takes the ping of the server for
the end of an answer. `remo.send` sends everything it is given. -/

namespace ClassicX

/-- `p.read(2048)`. -/
def READLEN : ℕ := 2048

/-- `loop` at the serial port: what came over it and was not read, the `outbuf` of the exchange if there is one, and what was
    passed to `remo.send`. -/
structure Port where
  serial : List UInt8 := []
  outbuf : Option (List UInt8) := none
  sent : List (List UInt8) := []
  deriving DecidableEq

/-- A turn of the inner loop with what was read: the `outbuf` it goes on with, or what it sends before it breaks. -/
def loop.turn (outbuf piece : List UInt8) : List UInt8 ⊕ List UInt8 :=
  let oldlen := outbuf.length
  let outbuf := outbuf ++ piece
  if outbuf.length = oldlen then .inl outbuf
  else if outbuf.getLast? = some 1 then .inr outbuf.dropLast
  else .inl outbuf

/-- `n` bytes are read, of those that are there. -/
def Port.read (p : Port) (n : ℕ) : Option Port :=
  match p.outbuf with
  | none => none
  | some outbuf =>
    if n ≤ READLEN ∧ n ≤ p.serial.length then
      match loop.turn outbuf (p.serial.take n) with
      | .inl outbuf => some { p with serial := p.serial.drop n, outbuf := some outbuf }
      | .inr bytes => some { p with serial := p.serial.drop n, outbuf := none, sent := p.sent ++ [bytes] }
    else
      none

/-- The state of `loop`, with what the server answers to the requests to come. -/
structure Bridge extends Port where
  replies : List (List UInt8)
  deriving DecidableEq

/-- What may happen: the next request comes in and is answered, or `n` bytes are read. -/
inductive loop.Act
  | request
  | read (n : ℕ)

def loop.step (s : Bridge) : loop.Act → Option Bridge
  | .request =>
    match s.outbuf, s.replies with
    | none, r :: replies => some { s with replies := replies, serial := s.serial ++ r, outbuf := some [] }
    | _, _ => none
  | .read n => (s.toPort.read n).map fun port => { s with toPort := port }

structure Relay where
  s : Bridge
  act : loop.Act
  s' : Bridge

def loop.relay : Runs.System Bridge Relay where
  pre t := t.s
  post t := t.s'
  Ok t := loop.step t.s t.act = some t.s'

/-- The steps of a list, up to the first that cannot be taken. -/
def loop.steps (s : Bridge) (acts : List loop.Act) : List Relay × Bridge :=
  Runs.steps loop.relay (fun s act => (loop.step s act).map fun s' => ⟨s, act, s'⟩) acts [] s

theorem loop.steps_run (s : Bridge) (acts : List loop.Act) : Runs.Run loop.relay s (loop.steps s acts).1 (loop.steps s acts).2 := by
  refine Runs.Run.steps (fun s act t h => ?_) acts .start
  obtain ⟨s', hr, rfl⟩ := Option.map_eq_some_iff.mp h
  exact ⟨rfl, hr⟩

end ClassicX
