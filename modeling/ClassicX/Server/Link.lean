import ClassicX.Server.Bridge
import ClassicX.Server.Start

/-! # The server behind the bridge (`localsrv.py`, `lvlsim.c`)

The server reads what `loop` has written to the serial port, and `loop` reads what the server gives away while it goes on. An
iteration waits for all the bytes of its field. -/

namespace ClassicX

/-- What the calls of `remo.recv` to come return on one connection after another, the server, and the port with what the server
    gave away. -/
structure Link extends Port where
  asked : List (List UInt8)
  ct : Mcctyp := .evtno
  w : World

/-- What may happen: `remo.recv` returns, with a request that is written to the serial port or with nothing, where the connection
    is closed and `loop` accepts another; the server takes an iteration; or `n` bytes are read. -/
inductive Link.Act
  | request
  | serve
  | read (n : ℕ)
  deriving DecidableEq

def Link.step (s : Link) : Link.Act → Option Link
  | .request =>
    match s.outbuf, s.asked with
    | none, inbuf :: asked =>
      if inbuf = [] then
        -- The server does not hear of it.
        some { s with asked := asked }
      else
        some { s with asked := asked, w := { s.w with stdin := ⟨s.w.stdin.rest ++ inbuf, s.w.stdin.eof⟩ }, outbuf := some [] }
    | _, _ => none
  | .serve =>
    if s.ct ≠ .invalid ∧ mcctlen s.w.z.session s.ct ≤ s.w.stdin.rest.length then
      (cloop s.w s.ct).map fun r => { s with ct := r.1, w := r.2, serial := s.serial ++ r.2.stdout.drop s.w.stdout.length }
    else
      none
  | .read n => (s.toPort.read n).map fun port => { s with toPort := port }

structure Exchange where
  s : Link
  act : Link.Act
  s' : Link

def link : Runs.System Link Exchange where
  pre t := t.s
  post t := t.s'
  Ok t := t.s.step t.act = some t.s'

@[simp] theorem link_pre (t : Exchange) : link.pre t = t.s := rfl
@[simp] theorem link_post (t : Exchange) : link.post t = t.s' := rfl

/-- The server before the first of the requests. -/
def Link.first (ldefault : Ptr) (ldsize : Int16) (lddim : Mcvec) (asked : List (List UInt8)) : Link :=
  { asked := asked, w := csetup (lload ldefault ldsize lddim) [] }

/-- The steps of a list, up to the first that cannot be taken. -/
def Link.steps (s : Link) (acts : List Link.Act) : List Exchange × Link :=
  Runs.steps link (fun s act => (s.step act).map fun s' => ⟨s, act, s'⟩) acts [] s

theorem Link.steps_run (s : Link) (acts : List Link.Act) : Runs.Run link s (s.steps acts).1 (s.steps acts).2 := by
  refine Runs.Run.steps (fun s act t h => ?_) acts .start
  obtain ⟨s', hr, rfl⟩ := Option.map_eq_some_iff.mp h
  exact ⟨rfl, hr⟩

end ClassicX
