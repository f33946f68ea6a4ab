import ClassicX.Lib.Runs
import ClassicX.Server.Platform

/-! # The platform on the MSP430 (`msp430.c`)

The main program and two interrupt handlers share two rings of 16 bytes. A step is a statement of `_cget` or `_cput`, which
`input` and `output` call for every byte, a whole handler, or a byte that leaves the transmitter. A handler runs between
two statements of the main program, while interrupts are enabled. What else the main program does is its business: it
calls `input` and `output` when it likes.

`LPM0` puts the main program to sleep, and `LPM0_EXIT` of a handler wakes it up if it is asleep. -/

namespace ClassicX.Msp430

/-- `while (i) { --i; if (' ' != buf[i]) break; }` -/
def strim.last (buf : Ptr) : ℕ → ℕ
  | 0 => 0
  | i + 1 => if 0x20 ≠ buf i then i else strim.last buf i

/-- The result, and `dst` with the bytes and a NUL stored, or as it was. -/
def strim (dst buf : Ptr) (max : Int) : Int × Ptr :=
  let i := strim.last buf 64 + 1
  if (i : Int) > max then (-1, dst) else (i, dst.store 0 (buf.take i ++ [0]))

/-- `warn` does nothing. -/
@[reducible] def platform : Platform where
  warn _ := some ()
  strim := strim

/-! ### The state -/

/-- A ring, such as `_rbuf`, `_rfrnt`, `_rback` and `_rqty`. -/
structure Ring where
  buf : ℕ → UInt8 := fun _ => 0
  frnt : UInt8 := 0
  back : UInt8 := 0
  qty : UInt8 := 0

/-- The statements of `_cget`, by what comes next: `_DINT` and what follows it have the names of what they do. From `incr`
    on the byte is in the register `__cg`. -/
inductive Cget
  | test | lpm0 | take | incr (cg : UInt8) | wrap (cg : UInt8) | dint (cg : UInt8) | lower (cg : UInt8) | eint (cg : UInt8)
  | ret (cg : UInt8)
  deriving DecidableEq

/-- The statements of `_cput`. -/
inductive Cput
  | test | lpm0 | store | incr | wrap | dint | raise | eint | enable
  deriving DecidableEq

/-- Where the main program is: in `_cget` for `input`, with the bytes in `dst` and the `qty` of the loop, or in `_cput` of
    `src` for `output`, with the bytes that follow it. -/
inductive Main
  | rest
  | input (dst : List UInt8) (qty : ℕ) (pc : Cget)
  | output (src : UInt8) (bytes : List UInt8) (pc : Cput)
  deriving DecidableEq

/-- The state of the chip. `gie`, `txie` and `free` tell whether interrupts are enabled, whether `UCA0TXIE` is set, and
    whether the transmitter is free. What was received from `UCA0RXBUF` and stored to `UCA0TXBUF` is kept, and so is what
    the calls of `input` returned and what the calls of `output` were given. -/
structure Chip where
  r : Ring := {}
  w : Ring := {}
  gie : Bool := true
  txie : Bool := false
  free : Bool := true
  asleep : Bool := false
  main : Main := .rest
  received : List UInt8 := []
  sent : List UInt8 := []
  inputs : List (List UInt8) := []
  outputs : List (List UInt8) := []

/-! ### The main program -/

/-- `while (qty)` of `input`. -/
def input.loop (s : Chip) (dst : List UInt8) (qty : ℕ) : Chip :=
  if qty = 0 then { s with main := .rest, inputs := s.inputs ++ [dst] } else { s with main := .input dst qty .test }

/-- `while (qty)` of `output`. -/
def output.loop (s : Chip) : List UInt8 → Chip
  | [] => { s with main := .rest }
  | src :: bytes => { s with main := .output src bytes .test }

/-- The next statement of `_cget`. -/
def cget (s : Chip) (dst : List UInt8) (qty : ℕ) : Cget → Chip
  | .test => { s with main := .input dst qty (if s.r.qty = 0 then .lpm0 else .take) }
  | .lpm0 => { s with asleep := true, main := .input dst qty .test }
  | .take => { s with main := .input dst qty (.incr (s.r.buf s.r.frnt.toNat)) }
  | .incr cg => { s with r := { s.r with frnt := s.r.frnt + 1 }, main := .input dst qty (.wrap cg) }
  | .wrap cg => { s with r := { s.r with frnt := s.r.frnt &&& 15 }, main := .input dst qty (.dint cg) }
  | .dint cg => { s with gie := false, main := .input dst qty (.lower cg) }
  | .lower cg => { s with r := { s.r with qty := s.r.qty - 1 }, main := .input dst qty (.eint cg) }
  | .eint cg => { s with gie := true, main := .input dst qty (.ret cg) }
  | .ret cg => input.loop s (dst ++ [cg]) (qty - 1)

/-- The next statement of `_cput`. -/
def cput (s : Chip) (src : UInt8) (bytes : List UInt8) : Cput → Chip
  | .test => { s with main := .output src bytes (if 16 = s.w.qty then .lpm0 else .store) }
  | .lpm0 => { s with asleep := true, main := .output src bytes .test }
  | .store => { s with w := { s.w with buf := Function.update s.w.buf s.w.back.toNat src }, main := .output src bytes .incr }
  | .incr => { s with w := { s.w with back := s.w.back + 1 }, main := .output src bytes .wrap }
  | .wrap => { s with w := { s.w with back := s.w.back &&& 15 }, main := .output src bytes .dint }
  | .dint => { s with gie := false, main := .output src bytes .raise }
  | .raise => { s with w := { s.w with qty := s.w.qty + 1 }, main := .output src bytes .eint }
  | .eint => { s with gie := true, main := .output src bytes .enable }
  | .enable => output.loop { s with txie := true } bytes

/-! ### The handlers -/

def rxdo (s : Chip) (rxbuf : UInt8) : Chip :=
  { s with
    r := { s.r with
      buf := Function.update s.r.buf s.r.back.toNat rxbuf
      back := (s.r.back + 1) &&& 15
      qty := s.r.qty + 1 }
    received := s.received ++ [rxbuf]
    asleep := false }

def txdo (s : Chip) : Chip :=
  { s with
    w := { s.w with frnt := (s.w.frnt + 1) &&& 15, qty := s.w.qty - 1 }
    txie := if s.w.qty - 1 = 0 then false else s.txie
    free := false
    sent := s.sent ++ [s.w.buf s.w.frnt.toNat]
    asleep := false }

/-! ### Steps -/

/-- What may happen: a call of `input` or `output`, the next statement of the main program, a byte that is received, a run
    of `_txdo`, or the end of a transmission. -/
inductive Act
  | input (qty : ℕ)
  | output (src : List UInt8)
  | stmt
  | rxdo (rxbuf : UInt8)
  | txdo
  | idle
  deriving DecidableEq

def step (s : Chip) : Act → Option Chip
  | .input qty => if s.main = .rest then some (input.loop s [] qty) else none
  | .output src => if s.main = .rest then some (output.loop { s with outputs := s.outputs ++ [src] } src) else none
  | .stmt =>
    if s.asleep then none
    else match s.main with
      | .rest => none
      | .input dst qty pc => some (cget s dst qty pc)
      | .output src bytes pc => some (cput s src bytes pc)
  | .rxdo rxbuf => if s.gie then some (Msp430.rxdo s rxbuf) else none
  | .txdo => if s.gie ∧ s.txie ∧ s.free then some (Msp430.txdo s) else none
  | .idle => some { s with free := true }

structure Step where
  s : Chip
  act : Act
  s' : Chip

def chip : Runs.System Chip Step where
  pre t := t.s
  post t := t.s'
  Ok t := step t.s t.act = some t.s'

/-- The steps of a list, up to the first that cannot be taken. -/
def steps (acts : List Act) : List Step × Chip :=
  Runs.steps chip (fun s act => (step s act).map fun s' => ⟨s, act, s'⟩) acts [] {}

theorem steps_run (acts : List Act) : Runs.Run chip {} (steps acts).1 (steps acts).2 := by
  refine Runs.Run.steps (fun s act t h => ?_) acts .start
  obtain ⟨s', hr, rfl⟩ := Option.map_eq_some_iff.mp h
  exact ⟨rfl, hr⟩

end ClassicX.Msp430
