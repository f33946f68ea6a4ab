import ClassicX.Mccp.Basic

/-! # The server-side reader (`rct.c`, `mcctlen` and `mcsread` of `api.c`)

A type reader takes the session, the bytes at `src`, how many of them there are, and whether `dst` is a
pointer or null. It answers with its count, the session, and what it stored at `dst`. It is `none` where
the C code goes through a null pointer. -/

namespace ClassicX

/-- What a type reader stores at `dst`. -/
inductive Val
  | evt (e : Mccevt)
  | ver (v : Int)
  | str (bytes : List UInt8)
  | bup (u : Mcbup)
  | eno (n : Int8)
  | stat (epos : Mcvec) (head : Mchead)
  | flg (f : Int8)
  deriving DecidableEq

structure Rd where
  ret : Int
  ctx : Mcx
  val : Option Val
  deriving DecidableEq

/-- The table `ctlen`: the lengths of the client types. -/
def ctlen : Mcctyp → Int
  | .invalid => 0
  | .evtno => 1
  | .version => 1
  | .name => 64
  | .blkch => 8
  | .actrno => 1
  | .actrstat => 8
  | .msg => 64
  | .pass => 64
  | .cflgs => 1

def mcctlen (ssrv : Mcx) (ct : Mcctyp) : Int :=
  if MCPVMAX ≥ ssrv.curpv then
    let ctl := ctlen ct
    if 0 = ssrv.curpv ∧ .greeting = ssrv.r.evt ∧ .name = ct then ctl - 1 else ctl
  else
    0

/-- The table `ten`: the type that follows the event number. -/
def ten : Mccevt → Mcctyp
  | .invalid => .invalid
  | .nothing => .evtno
  | .greeting => .version
  | .blkedit => .blkch
  | .plyrstat => .actrno
  | .chatmsg => .actrno

def rctEventNumber (ctx : Mcx) (src : Ptr) (qty : Int) (dst : Bool) : Option Rd :=
  let enln := mcctlen ctx .evtno
  if enln > qty then
    some ⟨MCENOTENOUGH, ctx, none⟩
  else
    let cevt := cedecode (src 0).toNat
    let type := if cevt = .nothing then .invalid else ten cevt
    -- `*out` is stored without asking whether there is a `dst`.
    if dst then some ⟨enln, { ctx with r := { ctx.r with evt := cevt, type := type } }, some (.evt cevt)⟩
    else none

def rctVersion (ctx : Mcx) (src : Ptr) (qty : Int) (dst : Bool) : Option Rd :=
  let vlen := mcctlen ctx .version
  if vlen > qty then
    some ⟨MCENOTENOUGH, ctx, none⟩
  else
    let b := src 0
    -- A printable character is the first one of a version 0 name.
    let (cpv, r) :=
      if 32 > b then ((b.toNat : Int), tchngs ctx.r .name)
      else (0, tchng { ctx.r with rem := MCSTRLEN - 1 } .name)
    some ⟨vlen, { ctx with curpv := cpv, r := r }, if dst then some (.ver cpv) else none⟩

/-- The string readers: read what `src` has, and `next` when the string is complete, which may depend on
    the protocol version. -/
def rctString (next : Int → Mcseri Mccevt Mcctyp → Mcseri Mccevt Mcctyp) (ctx : Mcx) (src : Ptr) (qty : Int)
    (dst : Bool) : Option Rd :=
  let (qty, bytes, r) := reads ctx.r src qty dst
  some ⟨qty, { ctx with r := if 0 = r.rem then next ctx.curpv r else r }, if dst then some (.str bytes) else none⟩

/-- `treset` and `type = 0`. -/
def rdone (ser : Mcseri Mccevt Mcctyp) : Mcseri Mccevt Mcctyp := { treset ser with type := 0 }

def rctName : Mcx → Ptr → Int → Bool → Option Rd :=
  rctString fun curpv r => if 3 > curpv then rdone r else tchngs r .pass

def rctBlockChange (ctx : Mcx) (src : Ptr) (qty : Int) (dst : Bool) : Option Rd :=
  let bcln := mcctlen ctx .blkch
  if bcln > qty then
    some ⟨MCENOTENOUGH, ctx, none⟩
  else if dst then
    let upd : Mcbup := ⟨i3read src, readb (src.incr 6), readb (src.incr 7)⟩
    some ⟨bcln, { ctx with r := rdone ctx.r }, some (.bup upd)⟩
  else
    none

/-- The tables `ctup` and `ctn`: how the state changes after the entity number. The first three entries
    of `ctup` are null. -/
def ctup : Mccevt → Option (Mcseri Mccevt Mcctyp → Mcseri Mccevt Mcctyp)
  | .plyrstat => some (tchng · .actrstat)
  | .chatmsg => some (tchngs · .msg)
  | _ => none

def rctActorNumber (ctx : Mcx) (src : Ptr) (qty : Int) (dst : Bool) : Option Rd :=
  let anln := mcctlen ctx .actrno
  if anln > qty then
    some ⟨MCENOTENOUGH, ctx, none⟩
  else do
    let tup ← ctup ctx.r.evt
    some ⟨anln, { ctx with r := tup ctx.r }, if dst then some (.eno (readb src)) else none⟩

def rctActorState (ctx : Mcx) (src : Ptr) (qty : Int) (dst : Bool) : Option Rd :=
  let asln := mcctlen ctx .actrstat
  if asln > qty then
    some ⟨MCENOTENOUGH, ctx, none⟩
  else if dst then
    let head : Mchead := ⟨readu (src.incr 6), readu (src.incr 7)⟩
    some ⟨asln, { ctx with r := rdone ctx.r }, some (.stat (i3read src) head)⟩
  else
    none

def rctMessage : Mcx → Ptr → Int → Bool → Option Rd := rctString fun _ r => rdone r

def rctPassword : Mcx → Ptr → Int → Bool → Option Rd :=
  rctString fun curpv r => if 6 > curpv then rdone r else tchng r .cflgs

def rctClientFlags (ctx : Mcx) (src : Ptr) (qty : Int) (dst : Bool) : Option Rd :=
  let cfln := mcctlen ctx .cflgs
  if cfln > qty then
    some ⟨MCENOTENOUGH, ctx, none⟩
  else
    some ⟨cfln, { ctx with r := rdone ctx.r }, if dst then some (.flg (readb src)) else none⟩

/-- The table `ctrd` of type readers: -1 is outside of it. -/
def ctrd : Mcctyp → Option (Mcx → Ptr → Int → Bool → Option Rd)
  | .invalid => none
  | .evtno => some rctEventNumber
  | .version => some rctVersion
  | .name => some rctName
  | .blkch => some rctBlockChange
  | .actrno => some rctActorNumber
  | .actrstat => some rctActorState
  | .msg => some rctMessage
  | .pass => some rctPassword
  | .cflgs => some rctClientFlags

/-- Read server-side protocol: the next type, the session, and what was stored at `dst`. The count of
    the type reader is dropped. -/
def mcsread (ssrv : Mcx) (src : Ptr) (qty : Int) (dst : Bool) : Option (Mcctyp × Mcx × Option Val) := do
  let rd ← ctrd ssrv.r.type
  let o ← rd ssrv src qty dst
  some (o.ctx.r.type, o.ctx, o.val)

/-- Set the version of `qty` sessions, from the last one back. -/
def resetpv (pv : Int) : List Mcx → ℕ → List Mcx
  | sany, 0 => sany
  | sany, qty + 1 => resetpv pv (sany.modify qty fun s => { s with curpv := pv }) qty

/-- Reset at least 1 session and set the desired protocol version. The zeros are stored over the size of
    one session. -/
def mcreset (sany : List Mcx) (qty : ℕ) (pv : Int) : List Mcx × Int :=
  (resetpv pv (sany.set 0 default) qty, pv)

/-- A session that was reset on its own. -/
def fresh (pv : Int) : Mcx := { (default : Mcx) with curpv := pv }

theorem mcreset_one (s : Mcx) (pv : Int) : mcreset [s] 1 pv = ([fresh pv], pv) := rfl

end ClassicX
