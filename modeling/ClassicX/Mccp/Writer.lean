import ClassicX.Lib.Turns
import ClassicX.Mccp.Basic

/-! # The server-side writer (`wse.c`, `mcswr` of `api.c`)

A field writer stores the next bytes of one field, an event writer loops over the fields of its event,
and `mcswr` dispatches on the event in progress. An event writer may be called at any byte of a string
or array and at any field boundary: `w.type` is the number of the field to write next. It is `none`
where the C code goes through a null pointer or reads a structure of another type. -/

namespace ClassicX
open Turns (Turn Done doWhile)
open Fields (clip)

/-! ### Writers of one field -/

/-- What a field writer leaves behind: its count, the session, and the bytes stored from `dst` on. -/
structure Fw where
  ret : Int
  ctx : Mcx
  bytes : List UInt8

/-- The writers of a field of fixed size: when it does not fit, `short` is returned and nothing is
    written; else the state changes to `w`. -/
def fixedw (ctx : Mcx) (qty tlen short : Int) (bytes : List UInt8) (w : Mcseri Mcsevt Int) : Fw :=
  if tlen > qty then ⟨short, ctx, []⟩ else ⟨tlen, { ctx with w := w }, bytes⟩

/-- Byte Write, Type Increment 0. -/
def bwti0 (ctx : Mcx) (qty : Int) (src : Int8) : Fw := fixedw ctx qty 1 0 (writeb src) (tincr ctx.w 0)

/-- Byte Write, Type Increment String. -/
def bwtis (ctx : Mcx) (qty : Int) (src : Int8) : Fw := fixedw ctx qty 1 0 (writeb src) (tincr ctx.w MCSTRLEN)

/-- Byte Write, Type Reset. -/
def bwtr (ctx : Mcx) (qty : Int) (src : Int8) : Fw := fixedw ctx qty 1 0 (writeb src) (treset ctx.w)

/-- Diff[3] Write, Type Increment 0. -/
def d3wti0 (ctx : Mcx) (qty : Int) (src : Mcvec) : Fw := fixedw ctx qty 3 0 (write3d src) (tincr ctx.w 0)

/-- Difference[3] Write, Type Reset. -/
def d3wtr (ctx : Mcx) (qty : Int) (src : Mcvec) : Fw := fixedw ctx qty 3 0 (write3d src) (treset ctx.w)

/-- Entity STate Write, Type Reset. -/
def estwtr (ctx : Mcx) (qty : Int) (src : Mceup) : Fw :=
  fixedw ctx qty 8 MCENOTENOUGH (writevec src.epos ++ write2u src.head) (treset ctx.w)

/-- Integer[3] Write, Type Incr. 0. -/
def i3wti0 (ctx : Mcx) (qty : Int) (src : Mcvec) : Fw :=
  fixedw ctx qty 6 MCENOTENOUGH (writevec src) (tincr ctx.w 0)

/-- Integer[3] Write, Type Reset. -/
def i3wtr (ctx : Mcx) (qty : Int) (src : Mcvec) : Fw :=
  fixedw ctx qty 6 MCENOTENOUGH (writevec src) (treset ctx.w)

/-- Integer Write, Type Incr. Array. -/
def iwtia (ctx : Mcx) (qty src : Int) : Fw :=
  fixedw ctx qty 2 0 (writei (Int16.ofInt src)) (tincr ctx.w MCARRAYLEN)

/-- Unsigned Write, Type Reset. -/
def uwtr (ctx : Mcx) (qty : Int) (src : UInt8) : Fw := fixedw ctx qty 1 0 (writeu src) (treset ctx.w)

/-- Unsigned[2] Write, Type Reset. -/
def u2wtr (ctx : Mcx) (qty : Int) (src : Mchead) : Fw := fixedw ctx qty 2 0 (write2u src) (treset ctx.w)

/-- Type Increment X if Zero. -/
def tixz (ctx : Mcx) (ti qty tlen : Int) : Int × Mcx :=
  if qty = 0 then (ti + 1, { ctx with w := { ctx.w with rem := tlen } }) else (ti, ctx)

/-- Type Reset if Zero. -/
def trz (ctx : Mcx) (ti qty : Int) : Int × Mcx :=
  if qty = 0 then (ti + 1, { ctx with w := { ctx.w with evt := .nothing } }) else (ti, ctx)

/-- The writers of a string: write what fits, and let `next` change the type when nothing remains. -/
def stringw (next : Mcx → Int → Int → Int × Mcx) (ctx : Mcx) (qty : Int) (src : Option Ptr) : Fw :=
  let (rsw, bytes, w) := writes ctx.w qty src
  let (type, ctx) := next { ctx with w := w } w.type w.rem
  ⟨rsw, { ctx with w := { ctx.w with type := type } }, bytes⟩

/-- String Write, Type Increment 0. -/
def swti0 : Mcx → Int → Option Ptr → Fw := stringw fun ctx ti rem => tixz ctx ti rem 0

/-- String Write, Type Incr. String. -/
def swtis : Mcx → Int → Option Ptr → Fw := stringw fun ctx ti rem => tixz ctx ti rem MCSTRLEN

/-- String Write, Type Reset. -/
def swtr : Mcx → Int → Option Ptr → Fw := stringw trz

/-! ### Fields of the events

The room of a turn is the `qty` of the loop after the turn. A writer of a string that comes from the
payload writes no more than the payload has, and moves the pointer of the payload on. -/

/-- A field writer that leaves the payload alone. -/
def Fw.turn {π : Type} (f : Fw) (src : π) (qty : Int) : Turn (Mcx × π) UInt8 := ⟨(f.ctx, src), qty, f.ret, f.bytes⟩

def pgw1 (ctx : Mcx) (qty : Int) (src : Mcgto) : Turn (Mcx × Mcgto) UInt8 := (bwtis ctx qty src.gpv).turn src qty

def pgw2 (ctx : Mcx) (qty : Int) (src : Mcgto) : Turn (Mcx × Mcgto) UInt8 :=
  let qty' := clip src.gnam src.gnln qty
  let f := if 3 > ctx.curpv then swtr ctx qty' src.gnam else swtis ctx qty' src.gnam
  f.turn { src with gnln := Fields.rest src.gnam src.gnln f.ret, gnam := src.gnam.map (·.incr f.ret) } qty

def pgw3 (ctx : Mcx) (qty : Int) (src : Mcgto) : Turn (Mcx × Mcgto) UInt8 :=
  let qty' := clip src.gmsg src.gmln qty
  let f := if 6 > ctx.curpv then swtr ctx qty' src.gmsg else swti0 ctx qty' src.gmsg
  f.turn { src with gmln := Fields.rest src.gmsg src.gmln f.ret, gmsg := src.gmsg.map (·.incr f.ret) } qty

def pgw4 (ctx : Mcx) (qty : Int) (src : Mcgto) : Turn (Mcx × Mcgto) UInt8 := (uwtr ctx qty src.gcfg).turn src qty

def ldw1 (ctx : Mcx) (qty : Int) (src : Mccho) : Turn (Mcx × Mccho) UInt8 := (iwtia ctx qty src.clen).turn src qty

def ldw2 (ctx : Mcx) (qty : Int) (src : Mccho) : Turn (Mcx × Mccho) UInt8 :=
  let (ret, bytes, w) := writex ctx.w (clip src.cdat src.cdln qty) src.cdat
  let src := { src with cdln := Fields.rest src.cdat src.cdln ret, cdat := src.cdat.map (·.incr ret) }
  ⟨({ ctx with w := if 0 = w.rem then tincr w 0 else w }, src), qty, ret, bytes⟩

def ldw3 (ctx : Mcx) (qty : Int) (src : Mccho) : Turn (Mcx × Mccho) UInt8 := (bwtr ctx qty src.cpct).turn src qty

def buw1 (ctx : Mcx) (qty : Int) (src : Mcbup) : Turn (Mcx × Mcbup) UInt8 := (i3wti0 ctx qty src.bpos).turn src qty

def buw2 (ctx : Mcx) (qty : Int) (src : Mcbup) : Turn (Mcx × Mcbup) UInt8 := (bwtr ctx qty src.bnew).turn src qty

def enw1 (ctx : Mcx) (qty : Int) (src : Mcent) : Turn (Mcx × Mcent) UInt8 := (bwtis ctx qty src.eno).turn src qty

def enw2 (ctx : Mcx) (qty : Int) (src : Mcent) : Turn (Mcx × Mcent) UInt8 :=
  let f := swti0 ctx (clip src.enam src.enln qty) src.enam
  f.turn { src with enln := Fields.rest src.enam src.enln f.ret, enam := src.enam.map (·.incr f.ret) } qty

def enw3 (ctx : Mcx) (qty : Int) (src : Mcent) : Turn (Mcx × Mcent) UInt8 := (estwtr ctx qty src.toMceup).turn src qty

/-- The table `pgw`, by `w.type`: entry 0 is null. -/
def pgw : Int → Option (Mcx → Int → Mcgto → Turn (Mcx × Mcgto) UInt8)
  | 1 => some pgw1
  | 2 => some pgw2
  | 3 => some pgw3
  | 4 => some pgw4
  | _ => none

def ldw : Int → Option (Mcx → Int → Mccho → Turn (Mcx × Mccho) UInt8)
  | 1 => some ldw1
  | 2 => some ldw2
  | 3 => some ldw3
  | _ => none

def buw : Int → Option (Mcx → Int → Mcbup → Turn (Mcx × Mcbup) UInt8)
  | 1 => some buw1
  | 2 => some buw2
  | _ => none

def enw : Int → Option (Mcx → Int → Mcent → Turn (Mcx × Mcent) UInt8)
  | 1 => some enw1
  | 2 => some enw2
  | 3 => some enw3
  | _ => none

/-- A field that no `case` names: the result is 0. -/
def skipw {π : Type} (ctx : Mcx) (qty : Int) (src : π) : Turn (Mcx × π) UInt8 := ⟨(ctx, src), qty, 0, []⟩

/-! ### Event writers -/

/-- What an event writer leaves behind: its count, the session, the payload, and every store by its
    offset from `dst`. -/
structure Swr where
  ret : Int
  ctx : Mcx
  src : Src
  stores : List (Int × UInt8)

/-- A loop over the fields of an event, while `w.evt` is set. Each turn of the loops of `wse.c` that does
    not end them writes a byte or moves `dst` 123 bytes back, so that 8192 turns are more than enough for
    the longest event. -/
def fieldLoop {π : Type} (field : Mcx → Int → π → Option (Turn (Mcx × π) UInt8)) (pay : π → Src) (ctx : Mcx)
    (qty : Int) (src : π) : Option Swr := do
  let d ← doWhile (fun s qty => field s.1 qty s.2) (fun s => s.1.w.evt ≠ .nothing) 8192 0 (ctx, src) qty
  some ⟨d.ret, d.next.1, pay d.next.2, d.stores⟩

/-- A writer of an event with a single field, without a loop. -/
def Fw.swr (f : Fw) (src : Src) : Swr := ⟨f.ret, f.ctx, src, Turns.storesAt 0 f.bytes⟩

/-- Start an event, or end the one that was written last. -/
def senw (ctx : Mcx) (qty : Int) (src : Src) : Option Swr :=
  if 0 ≠ ctx.w.type then
    -- Leftover from a previous write. Just return 0 to mark the end.
    some ⟨0, { ctx with w := { ctx.w with type := 0 } }, src, []⟩
  else match src with
    | .evt arg =>
      let op := seencode arg
      if .invalid = op then
        some ⟨MCEINVALIDOP, ctx, src, []⟩
      else
        let f := bwtis ctx qty (Int8.ofInt op.code)
        let w := { f.ctx.w with evt := arg }
        let w := if arg = .pgreeting ∧ 0 = ctx.curpv then tincr w MCSTRLEN else w
        some ({ f with ctx := { f.ctx with w := w } }.swr src)
    | _ => none

def sepgw (ctx : Mcx) (qty : Int) (src : Mcgto) : Option Swr :=
  fieldLoop (fun ctx qty src => do some ((← pgw ctx.w.type) ctx qty src)) .gto ctx qty src

def se0w (ctx : Mcx) (src : Src) : Swr := ⟨0, { ctx with w := { treset ctx.w with type := 0 } }, src, []⟩

/-- The length field of a chunk is cut to the size of an array before every turn. -/
def Mccho.cut (arg : Mccho) : Mccho := if MCARRAYLEN < arg.clen then { arg with clen := MCARRAYLEN } else arg

def seldtw (ctx : Mcx) (qty : Int) (src : Mccho) : Option Swr :=
  fieldLoop (fun ctx qty arg => do some ((← ldw ctx.w.type) ctx qty arg.cut)) .cho ctx qty src

def seldmw (ctx : Mcx) (qty : Int) (src : Mcvec) : Swr := (i3wtr ctx qty src).swr (.vec src)

def sebuw (ctx : Mcx) (qty : Int) (src : Mcbup) : Option Swr :=
  fieldLoop (fun ctx qty src => do some ((← buw ctx.w.type) ctx qty src)) .bup ctx qty src

def seenw (ctx : Mcx) (qty : Int) (src : Mcent) : Option Swr :=
  fieldLoop (fun ctx qty src => do some ((← enw ctx.w.type) ctx qty src)) .eno ctx qty src

def seestw.turn (ctx : Mcx) (qty : Int) (arg : Mceup) : Option (Turn (Mcx × Mceup) UInt8) :=
  match ctx.w.type with
  | 1 => some ((bwti0 ctx qty arg.eno).turn arg qty)
  | 2 => some ((estwtr ctx qty arg).turn arg qty)
  | _ => some (skipw ctx qty arg)

def seestw (ctx : Mcx) (qty : Int) (src : Mceup) : Option Swr := fieldLoop seestw.turn .eup ctx qty src

def seedw.turn (ctx : Mcx) (qty : Int) (arg : Mceup) : Option (Turn (Mcx × Mceup) UInt8) :=
  match ctx.w.type with
  | 1 => some ((bwti0 ctx qty arg.eno).turn arg qty)
  | 2 => some ((d3wti0 ctx qty arg.epos).turn arg qty)
  | 3 => some ((u2wtr ctx qty arg.head).turn arg qty)
  | _ => some (skipw ctx qty arg)

def seedw (ctx : Mcx) (qty : Int) (src : Mceup) : Option Swr := fieldLoop seedw.turn .eup ctx qty src

def seesdw.turn (ctx : Mcx) (qty : Int) (arg : Mceup) : Option (Turn (Mcx × Mceup) UInt8) :=
  match ctx.w.type with
  | 1 => some ((bwti0 ctx qty arg.eno).turn arg qty)
  | 2 => some ((d3wtr ctx qty arg.epos).turn arg qty)
  | _ => some (skipw ctx qty arg)

def seesdw (ctx : Mcx) (qty : Int) (src : Mceup) : Option Swr := fieldLoop seesdw.turn .eup ctx qty src

def seehw.turn (ctx : Mcx) (qty : Int) (arg : Mceup) : Option (Turn (Mcx × Mceup) UInt8) :=
  match ctx.w.type with
  | 1 => some ((bwti0 ctx qty arg.eno).turn arg qty)
  | 2 => some ((u2wtr ctx qty arg.head).turn arg qty)
  | _ => some (skipw ctx qty arg)

def seehw (ctx : Mcx) (qty : Int) (src : Mceup) : Option Swr := fieldLoop seehw.turn .eup ctx qty src

def seexw (ctx : Mcx) (qty : Int) (arg : Int8) : Swr := (bwtr ctx qty arg).swr (.eid arg)

/-- A turn of `secmw`. Unlike in the other events, it is the `qty` of the loop that is cut to the length of
    the message. -/
def secmw.turn (ctx : Mcx) (qty : Int) (arg : Mcmso) : Option (Turn (Mcx × Mcmso) UInt8) :=
  match ctx.w.type with
  | 1 => some ((bwtis ctx qty arg.eno).turn arg qty)
  | 2 =>
    let qty := clip arg.msg arg.mlen qty
    let f := swtr ctx qty arg.msg
    some (f.turn { arg with mlen := Fields.rest arg.msg arg.mlen f.ret, msg := arg.msg.map (·.incr f.ret) } qty)
  | _ => some (skipw ctx qty arg)

def secmw (ctx : Mcx) (qty : Int) (src : Mcmso) : Option Swr := fieldLoop secmw.turn .mso ctx qty src

def sepbw (ctx : Mcx) (qty : Int) (arg : Mcmso) : Swr :=
  let f := swtr ctx (clip arg.msg arg.mlen qty) arg.msg
  f.swr (.mso { arg with mlen := Fields.rest arg.msg arg.mlen f.ret, msg := arg.msg.map (·.incr f.ret) })

def secfw (ctx : Mcx) (qty : Int) (arg : UInt8) : Swr := (uwtr ctx qty arg).swr (.cfg arg)

/-- The table `sewr` of event writers. -/
def sewr : Mcsevt → Mcx → Int → Src → Option Swr
  | .nothing, ctx, qty, src => senw ctx qty src
  | .pgreeting, ctx, qty, .gto g => sepgw ctx qty g
  | .ping, ctx, _, src => some (se0w ctx src)
  | .lnew, ctx, _, src => some (se0w ctx src)
  | .ldata, ctx, qty, .cho c => seldtw ctx qty c
  | .ldim, ctx, qty, .vec v => some (seldmw ctx qty v)
  | .bupdate, ctx, qty, .bup u => sebuw ctx qty u
  | .enew, ctx, qty, .eno e => seenw ctx qty e
  | .estate, ctx, qty, .eup e => seestw ctx qty e
  | .ediff, ctx, qty, .eup e => seedw ctx qty e
  | .eslide, ctx, qty, .eup e => seesdw ctx qty e
  | .ehead, ctx, qty, .eup e => seehw ctx qty e
  | .edied, ctx, qty, .eid b => some (seexw ctx qty b)
  | .cmsg, ctx, qty, .mso m => secmw ctx qty m
  | .pbye, ctx, qty, .mso m => some (sepbw ctx qty m)
  | .cflags, ctx, qty, .cfg u => some (secfw ctx qty u)
  | _, _, _, _ => none

def mcswr (ssrv : Mcx) (qty : Int) (src : Src) : Option Swr := do
  let o ← sewr ssrv.w.evt ssrv qty src
  some { o with ret := if .nothing ≠ o.ctx.w.evt ∧ 0 = o.ret then MCENOTENOUGH else o.ret }

end ClassicX
