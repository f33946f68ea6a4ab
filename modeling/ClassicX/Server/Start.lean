import ClassicX.Lib.Runs
import ClassicX.Server.Client

/-! # Runs of the server (`start`)

A run is the loop of `start`: an iteration is a call of `cloop` with the type that the one before
answered with. Runs end at `MCCTINVALID`, and where the behaviour of an iteration is not defined. -/

namespace ClassicX

/-- An iteration of the loop of `start`: the type and the state it is called with, and what it answers. -/
structure Iter where
  ct : Mcctyp
  w : World
  nxt : Mcctyp
  w' : World

namespace Iter

/-- What `cloop` has read: the quantity that the handler is called with, if it is not negative. -/
def qty (t : Iter) : Int := (cloop.read t.w t.ct).1

/-- The state the handler is called with. -/
def rd (t : Iter) : World := (cloop.read t.w t.ct).2

def out (t : Iter) : List UInt8 := t.w'.stdout.drop t.w.stdout.length

end Iter

def start.loop [Platform] : Runs.System (Mcctyp × World) Iter where
  pre t := (t.ct, t.w)
  post t := (t.nxt, t.w')
  Ok t := t.ct ≠ .invalid ∧ cloop t.w t.ct = some (t.nxt, t.w')

section Runs
variable [Platform]

@[simp] theorem start.loop_pre (t : Iter) : start.loop.pre t = (t.ct, t.w) := rfl
@[simp] theorem start.loop_post (t : Iter) : start.loop.post t = (t.nxt, t.w') := rfl

/-- The runs of the server, with the level that is linked in, on a standard input. -/
abbrev Starts (ldefault : Ptr) (ldsize : Int16) (lddim : Mcvec) (stdin : List UInt8) : List Iter → Mcctyp × World → Prop :=
  Runs.Run start.loop (.evtno, csetup (lload ldefault ldsize lddim) stdin)

/-- The next iteration, if there is one. -/
def start.next (s : Mcctyp × World) : Option Iter :=
  if s.1 = .invalid then none else (cloop s.2 s.1).map fun s' => ⟨s.1, s.2, s'.1, s'.2⟩

/-- Up to `k` more iterations. -/
def start.steps (k : ℕ) (h : List Iter) (s : Mcctyp × World) : List Iter × (Mcctyp × World) :=
  Runs.steps start.loop (fun s () => start.next s) (List.replicate k ()) h s

/-- The run of the first `k` iterations. -/
theorem starts_steps (ldefault : Ptr) (ldsize : Int16) (lddim : Mcvec) (stdin : List UInt8) (k : ℕ) :
    Starts ldefault ldsize lddim stdin (start.steps k [] (.evtno, csetup (lload ldefault ldsize lddim) stdin)).1
      (start.steps k [] (.evtno, csetup (lload ldefault ldsize lddim) stdin)).2 := by
  refine Runs.Run.steps (fun s _ t h => ?_) (List.replicate k ()) .start
  obtain ⟨hct, h⟩ := Option.ite_none_left_eq_some.mp h
  obtain ⟨s', hr, rfl⟩ := Option.map_eq_some_iff.mp h
  exact ⟨rfl, hct, hr⟩

end Runs

end ClassicX
