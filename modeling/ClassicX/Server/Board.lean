import ClassicX.Server.Bridge
import ClassicX.Server.Device

/-! # The microcontroller behind the bridge (`localsrv.py`, `msp430.c`)

What `loop` writes to the serial port is received byte by byte, each by an interrupt, and what the microcontroller transmits
can be read. -/

namespace ClassicX.Msp430

/-- What the calls of `remo.recv` to come return on one connection after another, what was written to the serial port and not
    received, the device, and the port with what the device transmitted. -/
structure Board extends Port where
  asked : List (List UInt8)
  line : List UInt8 := []
  device : Device

/-- What may happen: `remo.recv` returns, with a request that is written to the serial port or with nothing, where the connection
    is closed and `loop` accepts another; the next byte on the line is received; the device takes another step; or `n` bytes are
    read. -/
inductive Board.Act
  | request
  | receive
  | work (work : Work)
  | read (n : ℕ)

def Work.receives : Work → Bool
  | .chip (.rxdo _) => true
  | _ => false

def Board.step (s : Board) : Board.Act → Option Board
  | .request =>
    match s.outbuf, s.asked with
    | none, inbuf :: asked =>
      if inbuf = [] then some { s with asked := asked }
      else some { s with asked := asked, line := s.line ++ inbuf, outbuf := some [] }
    | _, _ => none
  | .receive =>
    match s.line with
    | [] => none
    | rxbuf :: line => (s.device.step (.chip (.rxdo rxbuf))).map fun d => { s with line := line, device := d }
  | .work work =>
    if work.receives then none
    else (s.device.step work).map fun d =>
      { s with device := d, serial := s.serial ++ d.chip.sent.drop s.device.chip.sent.length }
  | .read n => (s.toPort.read n).map fun port => { s with toPort := port }

structure Shift where
  s : Board
  act : Board.Act
  s' : Board

def board : Runs.System Board Shift where
  pre t := t.s
  post t := t.s'
  Ok t := Board.step t.s t.act = some t.s'

@[simp] theorem board_pre (t : Shift) : board.pre t = t.s := rfl
@[simp] theorem board_post (t : Shift) : board.post t = t.s' := rfl

/-- The step of the device, if it takes one. -/
def Shift.tick (t : Shift) : Option Tick :=
  match t.act with
  | .request => none
  | .receive => t.s.line.head?.map fun rxbuf => ⟨t.s.device, .chip (.rxdo rxbuf), t.s'.device⟩
  | .work work => some ⟨t.s.device, work, t.s'.device⟩
  | .read _ => none

/-- The steps of the chip in a run. -/
def chipSteps (h : List Shift) : List Step := (h.filterMap Shift.tick).filterMap Tick.step

/-- The device after its setup, before the first of the requests. -/
def Board.first (ldefault : Ptr) (ldsize : Int16) (lddim : Mcvec) (asked : List (List UInt8)) : Board :=
  { asked := asked, device := main ldefault ldsize lddim }

/-- The steps of a list, up to the first that cannot be taken. -/
def Board.steps (s : Board) (acts : List Board.Act) : List Shift × Board :=
  Runs.steps board (fun s act => (s.step act).map fun s' => ⟨s, act, s'⟩) acts [] s

theorem Board.steps_run (s : Board) (acts : List Board.Act) : Runs.Run board s (s.steps acts).1 (s.steps acts).2 := by
  refine Runs.Run.steps (fun s act t h => ?_) acts .start
  obtain ⟨s', hr, rfl⟩ := Option.map_eq_some_iff.mp h
  exact ⟨rfl, hr⟩

end ClassicX.Msp430
