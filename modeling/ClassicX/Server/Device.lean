import ClassicX.Server.Msp430
import ClassicX.Server.Start

/-! # The server on the microcontroller (`msp430.c`, `lvlsim.c`, `client.c`)

The main program is the loop of `start`. `cloop` gets a field from `input` and calls its handler, which gives its answer to
`output`, at most `OUTBUFLEN` bytes at a time. What the handler does between two calls touches nothing that an interrupt
does, and is done at once. `input` waits for as many bytes as it is asked for, and meets no end. -/

namespace ClassicX.Msp430

/-- `cloop`, with the functions of `msp430.c`. -/
abbrev cloop (w : World) (nxt : Mcctyp) : Option (Mcctyp × World) := @ClassicX.cloop platform w nxt

/-- The runs of the server with the functions of `msp430.c`, where `input` returns the bytes of a list, and then meets its end. -/
abbrev Starts (ldefault : Ptr) (ldsize : Int16) (lddim : Mcvec) (bytes : List UInt8) : List Iter → Mcctyp × World → Prop :=
  @ClassicX.Starts platform ldefault ldsize lddim bytes

/-- Where `start` is: at the call of `input`, in it, or at the calls of `output` that are left of an answer. -/
inductive Phase
  | asks
  | reads
  | gives (left : List (List UInt8))

structure Device where
  chip : Chip := {}
  ct : Mcctyp := .evtno
  w : World
  phase : Phase := .asks

/-- What may happen: the chip takes a step, or `start` goes on. -/
inductive Work
  | chip (act : Act)
  | start
  deriving DecidableEq

/-- The steps that are not taken by `start`. -/
def Act.own : Act → Bool
  | .input _ => false
  | .output _ => false
  | _ => true

def Device.step (d : Device) : Work → Option Device
  | .chip act => if act.own then (Msp430.step d.chip act).map fun chip => { d with chip := chip } else none
  | .start =>
    match d.phase with
    | .asks =>
      if d.ct = .invalid then none
      else (Msp430.step d.chip (.input (mcctlen d.w.z.session d.ct).toNat)).map fun chip => { d with chip := chip, phase := .reads }
    | .reads =>
      if d.chip.main = .rest then
        (cloop { d.w with stdin := ⟨d.chip.inputs.getLastD [], false⟩ } d.ct).map fun r =>
          { d with ct := r.1, w := r.2, phase := .gives (r.2.outputs.drop d.w.outputs.length) }
      else
        none
    | .gives [] => some { d with phase := .asks }
    | .gives (src :: left) =>
      (Msp430.step d.chip (.output src)).map fun chip => { d with chip := chip, phase := .gives left }

structure Tick where
  d : Device
  work : Work
  d' : Device

def device : Runs.System Device Tick where
  pre t := t.d
  post t := t.d'
  Ok t := Device.step t.d t.work = some t.d'

@[simp] theorem device_pre (t : Tick) : device.pre t = t.d := rfl
@[simp] theorem device_post (t : Tick) : device.post t = t.d' := rfl

/-- The step of the chip, if it takes one. -/
def Tick.step (t : Tick) : Option Step :=
  match t.work, t.d.phase with
  | .chip act, _ => some ⟨t.d.chip, act, t.d'.chip⟩
  | .start, .asks => some ⟨t.d.chip, .input (mcctlen t.d.w.z.session t.d.ct).toNat, t.d'.chip⟩
  | .start, .gives (src :: _) => some ⟨t.d.chip, .output src, t.d'.chip⟩
  | _, _ => none

/-- The device after its setup. -/
def main (ldefault : Ptr) (ldsize : Int16) (lddim : Mcvec) : Device := { w := csetup (lload ldefault ldsize lddim) [] }

/-- The steps of a list, up to the first that cannot be taken. -/
def works (d : Device) (ws : List Work) : List Tick × Device :=
  Runs.steps device (fun d work => (d.step work).map fun d' => ⟨d, work, d'⟩) ws [] d

theorem works_run (d : Device) (ws : List Work) : Runs.Run device d (works d ws).1 (works d ws).2 := by
  refine Runs.Run.steps (fun d work t h => ?_) ws .start
  obtain ⟨d', hr, rfl⟩ := Option.map_eq_some_iff.mp h
  exact ⟨rfl, hr⟩

end ClassicX.Msp430
