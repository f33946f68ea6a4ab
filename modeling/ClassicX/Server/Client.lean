import ClassicX.Server.Send

/-! # The server (`client.c`, `lvlsim.c`)

A handler reads what the client sent and answers it. `cloop` reads one field of the standard input and
calls the handler of its type, and `start` does so until `MCCTINVALID`. `ctdefault` is the handler of
the other types; there are none. -/

namespace ClassicX
open Turns (storesAt)

/-! ### Comparing states (`mcescmp`, `mcbcec`) -/

/-- Result of entity comparison. -/
inductive Mcediff
  | eq | head | pos | all | big
  deriving DecidableEq

def dcheck (dc : Int16) : Bool :=
  let dc := if 0 < dc then -dc else dc
  dc < -127

def d3chk (d3c : Mcvec) : Bool := dcheck d3c.x || dcheck d3c.y || dcheck d3c.z

/-- The number of the result is a bit set: 2 for the position, and 1 for the head. -/
def mcescmp (dst src : Mceup) : Mcediff :=
  let dv : Mcvec := ⟨dst.epos.x - src.epos.x, dst.epos.y - src.epos.y, dst.epos.z - src.epos.z⟩
  if d3chk dv then .big
  else
    let diff := dv.x ||| dv.z ||| dv.y
    let db := dst.head.yaw ^^^ src.head.yaw ^^^ dst.head.phi ^^^ src.head.phi
    if diff ≠ 0 then if db ≠ 0 then .all else .pos
    else if db ≠ 0 then .head else .eq

def mcbcec (ec : Int16) : Int16 :=
  let ubc := ec.toUInt16 >>> 5
  (if 0 > ec then ubc ||| 0xF800 else ubc).toInt16

/-! ### Handlers -/

/-- `mcsread(&z->session, src, qty, dst)`, where `src` is always the buffer `in`. -/
def World.mcsread (w : World) (qty : Int) (dst : Bool) : Option (Mcctyp × World × Option Val) := do
  let (nxt, s, v) ← ClassicX.mcsread w.z.session w.inbuf qty dst
  some (nxt, w.withSession s, v)

/-- `if (r) nxt = MCCTINVALID`. -/
def Mcctyp.unless (nxt : Mcctyp) (r : Int) : Mcctyp := if r ≠ 0 then .invalid else nxt

def ctevtno (w : World) (qty : Int) : Option (Mcctyp × World) := do
  let (nxt, w, _) ← w.mcsread qty true
  some (nxt, w)

def ctversion (w : World) (qty : Int) : Option (Mcctyp × World) := do
  let (nxt, w, _) ← w.mcsread qty true
  some (nxt, w)

def respond [Platform] (w : World) (nxt : Mcctyp) : Option (Mcctyp × World) :=
  if .evtno ≠ nxt then some (nxt, w)
  else do
    let (r, w) ← initseq w
    some (nxt.unless r, w)

def ctname.save [Platform] (w : World) : Int × World :=
  let (b, nbuf) := Platform.strim w.nbuf w.inbuf 20
  (b, { w.withCent { w.z.cent with enam := some nbuf, enln := b } with nbuf := nbuf })

def ctname [Platform] (w : World) (qty : Int) : Option (Mcctyp × World) := do
  let (nxt, w, _) ← w.mcsread qty false
  let (b, w) := ctname.save w
  if 0 > b then do
    let (_, w) ← sebye w (cchr "Your name is too long!")
    some (nxt, w)
  else if 0 = b then do
    let (_, w) ← sebye w (cchr "You don't have a name!")
    some (nxt, w)
  else respond w nxt

/-- What `mcsread` leaves in the zeroed `u`. -/
def ctblkch.upd : Option Val → Mcbup
  | some (.bup u) => u
  | _ => {}

def ctblkch [Platform] (w : World) (qty : Int) : Option (Mcctyp × World) := do
  let (nxt, w, v) ← w.mcsread qty true
  let u := ctblkch.upd v
  let u := if Mcumod.clear.code = u.umod then { u with bnew := 0 } else u
  Platform.warn w.z.cent.enam
  let (r, w) ← seblkch w u
  if r ≠ 0 then some (.invalid, w)
  else do
    let (r, w) ← seping w
    some (nxt.unless r, w)

def ctactrno (w : World) (qty : Int) : Option (Mcctyp × World) := do
  let (nxt, w, _) ← w.mcsread qty false
  some (nxt, w)

/-- What `mcsread` leaves in the zeroed `new`. -/
def ctactrstat.new : Option Val → Mceup
  | some (.stat epos head) => { epos := epos, head := head }
  | _ => {}

/-- Send back the same state at opposite side. -/
def ctactrstat.mirror (w : World) (d : Mcediff) (old new : Mceup) : Option (Int × World) :=
  let diff : Mcvec := ⟨old.epos.x - new.epos.x, new.epos.y - old.epos.y, old.epos.z - new.epos.z⟩
  match d with
  | .big => seactrstat w { new with epos := ⟨512 - new.epos.x, new.epos.y, 512 - new.epos.z⟩ }
  | .all => seactrch w { new with epos := diff }
  | .pos => seactrslid w { new with epos := diff }
  | .head => seactrhead w new
  | .eq => some (0, w)

/-- Nothing, if the state of the player is the same. -/
def ctactrstat.moved (w : World) (old new : Mceup) : Option World :=
  let d := mcescmp old new
  if .eq = d then some w
  else do
    let d := if 0 = w.z.session.curpv then .big else d
    let (_, w) ← ctactrstat.mirror (w.withCent { w.z.cent with toMceup := new }) d old
      { new with eno := 0, head := { new.head with yaw := new.head.yaw + 128 } }
    some w

/-- At `ctr == 512` both entities are sent again, with the name of the player. -/
def ctactrstat.respawn (w : World) (nxt : Mcctyp) : Option (Mcctyp × World) :=
  if w.ctr ≠ 512 then some (nxt, w)
  else do
    let (r₁, w) ← seactrdied w 0
    let (r₂, w) ← segreeting w
    let eid := w.z.cent.eno
    let w := w.withCent { w.z.cent with eno := -1 }
    let (r₃, w) ← senewactr w w.z.cent
    let w := w.withCent { w.z.cent with eno := 0 }
    let (r₄, w) ← senewactr w w.z.cent
    let (r₅, w) ← seping (w.withCent { w.z.cent with eno := eid })
    some (((((nxt.unless r₁).unless r₂).unless r₃).unless r₄).unless r₅, w)

/-- The level was sent. -/
def ctactrstat.joined [Platform] (w : World) (old new : Mceup) : Option (Mcctyp × World) := do
  let w ← ctactrstat.moved w old new
  let (r, w) ← seping w
  let (nxt, w) ← ctactrstat.respawn w (Mcctyp.evtno.unless r)
  if w.ctr ≥ 1024 then do
    let (r, w) ← initseq w
    some (nxt.unless r, w)
  else
    some (nxt, w)

def ctactrstat [Platform] (w : World) (qty : Int) : Option (Mcctyp × World) := do
  let old := w.z.cent.toMceup
  let (_, w, v) ← w.mcsread qty true
  let (nxt, w) ←
    if 0 = w.z.flg then do
      let (r, w) ← seping w
      some (Mcctyp.evtno.unless r, w)
    else ctactrstat.joined w old (ctactrstat.new v)
  some (nxt, w.withCtr (w.ctr + 1))

/-! ### Messages -/

/-- `'` before and after each control character but NUL. -/
def ctmsg.control : Ptr :=
  fun i => (0x27 :: (List.range 31).flatMap fun c => [UInt8.ofNat (c + 1), 0x27]).getD i.toNat 0

/-- The messages in a row that explain the commands, up to the first that fails. -/
def ctmsg.help : World → List String → Option (Int × World)
  | w, [] => some (0, w)
  | w, msg :: msgs => do
    let (r, w) ← sechatmsg w (-1) (cchr msg)
    if r ≠ 0 then some (r, w) else ctmsg.help w msgs

/-- The answer to a command that starts with `c`: whether it failed, where that is looked at. -/
def ctmsg.command (w : World) (c : UInt8) : Option (Int × World) :=
  match Char.ofNat c.toNat with
  | 'p' =>
    let u0 := 10 * (0xF &&& w.inbuf 2)
    let u1 := 0xF &&& w.inbuf 3
    let epos := w.z.cent.epos
    if u0 ≠ 0 ∧ u1 ≠ 0 then do
      -- `umod` is not set, and not sent.
      let (_, w) ← seblkch w ⟨⟨mcbcec epos.x, mcbcec epos.y, mcbcec epos.z⟩, 0, u0.toInt8 + u1.toInt8⟩
      some (0, w)
    else sechatmsg w (-1) (cchr "Invalid usage.")
  | 'q' => sebye w (cchr "You quit.")
  | 'r' => do
    let (_, w) ← seactrdied w 0
    senewactr w { w.z.cent with eno := 0, enam := some (cchr "&8You"), enln := 5 }
  | 's' => senewactr w { initseq.spwn with eno := -1, enam := w.z.cent.enam, enln := w.z.cent.enln }
  | 't' => sechatmsg w (-1) (cchr "0123456789 ABCDEFGHIJKLMNOPQRSTUVWXYZ abcdefghijklmnopqrstuvwxyz")
  | 'u' => sechatmsg w (-1) (cchr "~`!@#$%^*()-_+=\x7b\x7d[]|\\:;\"'<,>.?/")
  | 'v' => sechatmsg w (-1) (cchr "&4g&z&&&*a& q")
  | 'w' => sechatmsg w (-1) (cchr "&")
  | 'x' => sechatmsg w (-1) ctmsg.control
  | 'y' => seactrstat w { initseq.spwn.toMceup with eno := -1 }
  | _ => ctmsg.help w [
    "Available commands: &7/q - quit; /r - respawn shadow;",
    "| &7/s - respawn; /t - print alphanumeric;",
    "| &7/u - print symbols except ampersand;",
    "| &7/v - print text with ampersands; /w - print one ampersand;",
    "| &7/x - print \"'\" and control characters except NUL;",
    "| &7/y - teleport."]

/-- The stores to `msg` that echo a message, and the quantity that `mcopy` is asked for. -/
def ctmsg.echo (enam : Ptr) (enln : Int) (src : Ptr) (qty : Int) : List (Int × UInt8) × Int :=
  let stores := storesAt 0 (scopy enam)
  let len := enln
  let (stores, len) := if MCSTRLEN ≠ len then (stores ++ [(len, 0x3A)], len + 1) else (stores, len)
  let (stores, len) := if MCSTRLEN ≠ len then (stores ++ [(len, 0x20)], len + 1) else (stores, len)
  let max := mins (MCSTRLEN - len) qty
  let stores := stores ++ storesAt len (src.take max.toNat)
  let len := len + max
  (if MCSTRLEN ≠ len then stores ++ [(len, 0)] else stores, max)

/-- `msg` when the message was stored. -/
def ctmsg.text (enam : Ptr) (enln : Int) (src : Ptr) (qty : Int) : Option Ptr :=
  let (stores, max) := ctmsg.echo enam enln src qty
  if 0 > max then none else poke MCSTRLEN (fun _ => 0) stores

def ctmsg [Platform] (w : World) (qty : Int) : Option (Mcctyp × World) := do
  let (nxt, w, _) ← w.mcsread qty false
  Platform.warn w.z.cent.enam
  if 0x2F = w.inbuf 0 then do
    let (r₁, w) ← ctmsg.command w (w.inbuf 1)
    let (r₂, w) ← seping w
    some ((nxt.unless r₁).unless r₂, w)
  else do
    let msg ← ctmsg.text (← w.z.cent.enam) w.z.cent.enln w.inbuf qty
    let (r, w) ← sechatmsg w 0 msg
    if r ≠ 0 then some (.invalid, w)
    else do
      let (r, w) ← seping w
      some (nxt.unless r, w)

def ctpass [Platform] (w : World) (qty : Int) : Option (Mcctyp × World) := do
  let (nxt, w, _) ← w.mcsread qty false
  respond w nxt

def ctcflg [Platform] (w : World) (qty : Int) : Option (Mcctyp × World) := do
  let (nxt, w, _) ← w.mcsread qty true
  respond w nxt

/-! ### The loop -/

/-- The handlers by type: -1 is not a type the loop runs with. -/
def handler [Platform] : Mcctyp → Option (World → Int → Option (Mcctyp × World))
  | .invalid => none
  | .evtno => some ctevtno
  | .version => some ctversion
  | .name => some ctname
  | .blkch => some ctblkch
  | .actrno => some ctactrno
  | .actrstat => some ctactrstat
  | .msg => some ctmsg
  | .pass => some ctpass
  | .cflgs => some ctcflg

/-- The quantity `cloop` reads: the name of a version 0 greeting goes after its first character. -/
def cloop.read (w : World) (nxt : Mcctyp) : Int × World :=
  let qty := mcctlen w.z.session nxt
  let (i, bytes, stdin) := input w.stdin qty
  if MCSTRLEN - 1 = qty then (i + 1, { w with inbuf := w.inbuf.store 1 bytes, stdin := stdin })
  else (i, { w with inbuf := w.inbuf.store 0 bytes, stdin := stdin })

def cloop [Platform] (w : World) (nxt : Mcctyp) : Option (Mcctyp × World) :=
  let (qty, w) := cloop.read w nxt
  if 0 > qty then some (.invalid, w)
  else do (← handler nxt) w qty

/-- The level of `lload` from the symbols that are linked in. -/
def lload (ldefault : Ptr) (ldsize : Int16) (lddim : Mcvec) : Lvl := ⟨ldefault, ldsize.toInt, lddim⟩

/-- The state of the program after `csetup`. -/
def csetup (l : Lvl) (stdin : List UInt8) : World := { z := { session := fresh 0, lcur := l }, stdin := ⟨stdin, false⟩ }

end ClassicX
