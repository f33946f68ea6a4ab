import ClassicX.Mccp.Reader
import ClassicX.Mccp.Packet
import ClassicX.Server.Platform

/-! # The senders of the server (`client.c`)

The state of the program is passed along. A sender answers with its result; it is none where a store
leaves the buffer of 16 bytes or `mcswr` is not defined. -/

namespace ClassicX
open Turns (storesAt)

def OUTBUFLEN : Int := 16

/-- What a level is sent from. -/
structure Lvl where
  cdat : Ptr
  filelen : Int
  dim : Mcvec

/-- Client: of `flg` only the first byte is used. -/
structure Cli where
  session : Mcx
  cent : Mcent := {}
  lcur : Lvl
  flg : UInt8 := 0

/-- The client, the statics of `client.c` (`in`, `nbuf` and `ctr`), the standard input, and what the calls of `output` were
    given. -/
structure World where
  z : Cli
  inbuf : Ptr := fun _ => 0
  nbuf : Ptr := fun _ => 0
  ctr : Int := 0
  stdin : Stdin
  outputs : List (List UInt8) := []

/-- What was written to the standard output. -/
def World.stdout (w : World) : List UInt8 := w.outputs.flatten

def World.withSession (w : World) (session : Mcx) : World := { w with z := { w.z with session := session } }

def World.withCent (w : World) (cent : Mcent) : World := { w with z := { w.z with cent := cent } }

def World.withFlg (w : World) (flg : UInt8) : World := { w with z := { w.z with flg := flg } }

def World.withCtr (w : World) (ctr : Int) : World := { w with ctr := ctr }

/-! ### The loop of a sender -/

/-- The locals of a sender: `out`, `idx` and `len`. -/
structure Out where
  buf : Ptr := fun _ => 0
  idx : Int := 0
  len : Int := OUTBUFLEN

/-- `output(out, idx)`. -/
def World.output (w : World) (o : Out) : Option World :=
  if 0 ≤ o.idx ∧ o.idx ≤ OUTBUFLEN then some { w with outputs := w.outputs ++ [o.buf.take o.idx.toNat] } else none

/-- `output(out, idx)`, and start over with the buffer. -/
def World.empty (w : World) (o : Out) : Option (World × Out) := do
  some (← w.output o, { o with idx := 0, len := OUTBUFLEN })

/-- `mcswr(&z->session, &out[idx], len, src)`: its result, and where it leaves `src`. -/
def World.mcswr (w : World) (o : Out) (src : Src) : Option (Int × World × Out × Src) := do
  let r ← ClassicX.mcswr w.z.session o.len src
  let buf ← poke OUTBUFLEN o.buf (r.stores.map fun st => (o.idx + st.1, st.2))
  some (r.ret, w.withSession r.ctx, { o with buf := buf }, r.src)

/-- What a sender does with the result of a call: the new `qty`. -/
def World.result (w : World) (o : Out) (qty : Int) : Option (Int × World × Out) :=
  if MCENOTENOUGH = qty then do
    let (w, o) ← w.empty o
    some (qty, w, o)
  else if 0 > qty then some (0, w, o)
  else some (qty, w, { o with idx := o.idx + qty, len := o.len - qty })

/-- All senders but `segeneric` are `eager`: they give away a buffer as soon as it is full. -/
def World.full (w : World) (eager : Bool) (o : Out) : Option (World × Out) :=
  if eager ∧ 0 = o.len then w.empty o else some (w, o)

/-- `while (0 != qty)`. An eager sender sets a pointer of the payload to null when its length is 0. -/
def sendLoop (eager : Bool) : ℕ → World → Out → Src → Option (World × Out)
  | 0, _, _, _ => none
  | k + 1, w, o, src => do
    let (qty, w, o, src) ← w.mcswr o src
    let (qty, w, o) ← w.result o qty
    let (w, o) ← w.full eager o
    let src := if eager then src.nullify else src
    if 0 ≠ qty then sendLoop eager k w o src else some (w, o)

/-- What follows the first call. Every turn but two writes a byte of a packet, and the longest packet has
    1028 bytes. -/
def sendRest (eager : Bool) (qty : Int) (w : World) (o : Out) (src : Src) : Option (Int × World) :=
  if 0 < qty then do
    let (w, o) ← sendLoop eager 4096 w { o with idx := o.idx + qty, len := o.len - qty } src
    some (0, ← w.output o)
  else
    some (qty, w)

def segeneric (w : World) (sevt : Mcsevt) (param : Src) : Option (Int × World) := do
  let (qty, w, o, _) ← w.mcswr {} (.evt sevt)
  let o := if .edied = sevt ∧ 0 = w.z.session.curpv then { o with buf := Function.update o.buf 0 9 } else o
  sendRest false qty w o param

def send (w : World) (se : Mcsevt) (src : Src) : Option (Int × World) := do
  let (qty, w, o, _) ← w.mcswr {} (.evt se)
  sendRest true qty w o src

/-! ### Senders -/

def segreeting.title : Ptr := cchr "MCCv0 Server on an MSP430G2553 with 512 Bytes of RAM!"

def segreeting.msg : Ptr := cchr "Test message!"

def segreeting.grt (curpv : Int) : Mcgto where
  gpv := Int8.ofInt curpv
  gnam := some segreeting.title
  gnln := slen segreeting.title
  gmsg := some segreeting.msg
  gmln := slen segreeting.msg
  gcfg := 0

def segreeting (w : World) : Option (Int × World) := send w .pgreeting (.gto (segreeting.grt w.z.session.curpv))

def seping (w : World) : Option (Int × World) := segeneric w .ping .null

def senewlvl (w : World) : Option (Int × World) := segeneric w .lnew .null

def selvldata (w : World) (dlen : Int) (src : Ptr) (pcnt : Int8) : Option (Int × World) :=
  send w .ldata (.cho ⟨some src, dlen, dlen, pcnt⟩)

def selvlsize (w : World) (dim : Mcvec) : Option (Int × World) := segeneric w .ldim (.vec dim)

def seblkch (w : World) (upd : Mcbup) : Option (Int × World) := segeneric w .bupdate (.bup upd)

/-- The entity as it is sent: a player's own spawn is lower. -/
def senewactr.ent (e : Mcent) : Mcent := if 0 > e.eno then { e with epos := { e.epos with y := e.epos.y - 20 } } else e

def senewactr (w : World) (e : Mcent) : Option (Int × World) := send w .enew (.eno (senewactr.ent e))

def seactrstat (w : World) (e : Mceup) : Option (Int × World) := segeneric w .estate (.eup e)

def seactrch (w : World) (diff : Mceup) : Option (Int × World) := segeneric w .ediff (.eup diff)

def seactrslid (w : World) (diff : Mceup) : Option (Int × World) := segeneric w .eslide (.eup diff)

def seactrhead (w : World) (ah : Mceup) : Option (Int × World) := segeneric w .ehead (.eup ah)

def seactrdied (w : World) (eid : Int8) : Option (Int × World) := segeneric w .edied (.eid eid)

def sechatmsg (w : World) (eid : Int8) (msg : Ptr) : Option (Int × World) := send w .cmsg (.mso ⟨some msg, slen msg, eid⟩)

def sebye (w : World) (msg : Ptr) : Option (Int × World) :=
  send (w.withFlg 0) .pbye (.mso ⟨some msg, slen msg, 0⟩)

/-! ### The answer to a greeting -/

/-- `for (i = 0; i < filelen; i += MCARRAYLEN)`, from `i` on. The result is -1 when a sender failed. -/
def initseq.loop : ℕ → World → Int → Int → Option (Int × World)
  | 0, _, _, _ => none
  | k + 1, w, i, ret =>
    if i < w.z.lcur.filelen then do
      -- `(mci)` cuts the difference of two longs.
      let rem := (Int16.ofInt (w.z.lcur.filelen - i)).toInt
      let (r, w) ← selvldata w (mins rem MCARRAYLEN) (w.z.lcur.cdat.incr i) 0
      initseq.loop k w (i + MCARRAYLEN) (if r ≠ 0 then -1 else ret)
    else
      some (ret, w)

/-- Where a player starts. -/
def initseq.spwn : Mcent := { epos := ⟨512, 512, 512⟩, head := ⟨224, 64⟩ }

def initseq [Platform] (w : World) : Option (Int × World) := do
  let w := w.withFlg 1
  Platform.warn w.z.cent.enam
  let (r₁, w) ← segreeting w
  let (r₂, w) ← senewlvl (w.withCtr 0)
  let ret := if r₁ ≠ 0 ∨ r₂ ≠ 0 then -1 else 0
  let (ret, w) ← initseq.loop ((w.z.lcur.filelen / MCARRAYLEN).toNat + 2) w 0 ret
  let (r₃, w) ← selvlsize w w.z.lcur.dim
  let spwn := { initseq.spwn with eno := -1, enam := some (cchr "You"), enln := 3 }
  let (r₄, w) ← senewactr w spwn
  let spwn := { spwn with head := { spwn.head with yaw := spwn.head.yaw ^^^ 128 } }
  let spwn := { spwn with eno := 0, enam := some (cchr "&8You"), enln := 5 }
  let (r₅, w) ← senewactr w spwn
  let (r₆, w) ← seping w
  some (if r₃ ≠ 0 ∨ r₄ ≠ 0 ∨ r₅ ≠ 0 ∨ r₆ ≠ 0 then -1 else ret, w)

end ClassicX
