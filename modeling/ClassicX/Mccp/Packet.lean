import ClassicX.Lib.Code
import ClassicX.Mccp.Writer

/-! # Packets as records of fields

What the server writer is for: the packet of an event is its number followed by the fields of its
payload. `layout` gives the fields of each event, `fieldsAt` those that are left when the writer stands
at field `w.type` with `w.rem` bytes of a string or array to go, and `encode` the flat packet. -/

namespace ClassicX
open Fields (Item)

/-- A string: cut to 64 bytes, and padded with spaces. -/
def strField (p : Option Ptr) (len : Int) : Item UInt8 := .text p len 0x20 MCSTRLEN

/-- An array: cut to 1024 bytes, and padded with zeros. -/
def arrField (p : Option Ptr) (len : Int) : Item UInt8 := .text p len 0 MCARRAYLEN

/-- The fields of an event for protocol version `curpv`, by field number from 1 on. -/
def layout (curpv : Int) : Mcsevt → Src → List (Item UInt8)
  | .pgreeting, .gto g =>
    .fixed (writeb g.gpv) :: strField g.gnam g.gnln ::
      if 3 > curpv then [] else strField g.gmsg g.gmln :: if 6 > curpv then [] else [.fixed (writeu g.gcfg)]
  | .ldata, .cho c =>
    [.fixed (writei (Int16.ofInt (min c.clen MCARRAYLEN))), arrField c.cdat c.cdln, .fixed (writeb c.cpct)]
  | .ldim, .vec v => [.fixed (writevec v)]
  | .bupdate, .bup u => [.fixed (writevec u.bpos), .fixed (writeb u.bnew)]
  | .enew, .eno e =>
    [.fixed (writeb e.eno), strField e.enam e.enln, .fixed (writevec e.epos ++ write2u e.head)]
  | .estate, .eup e => [.fixed (writeb e.eno), .fixed (writevec e.epos ++ write2u e.head)]
  | .ediff, .eup e => [.fixed (writeb e.eno), .fixed (write3d e.epos), .fixed (write2u e.head)]
  | .eslide, .eup e => [.fixed (writeb e.eno), .fixed (write3d e.epos)]
  | .ehead, .eup e => [.fixed (writeb e.eno), .fixed (write2u e.head)]
  | .edied, .eid b => [.fixed (writeb b)]
  | .cmsg, .mso m => [.fixed (writeb m.eno), strField m.msg m.mlen]
  | .pbye, .mso m => [strField m.msg m.mlen]
  | .cflags, .cfg u => [.fixed (writeu u)]
  | _, _ => []

/-- The fields of an event by their kind: a string or array with its size, or a field of fixed size. -/
def sizes (curpv : Int) : Mcsevt → List (Option Int)
  | .pgreeting =>
    none :: some MCSTRLEN :: if 3 > curpv then [] else some MCSTRLEN :: if 6 > curpv then [] else [none]
  | .ldata => [none, some MCARRAYLEN, none]
  | .ldim => [none]
  | .bupdate => [none, none]
  | .enew => [none, some MCSTRLEN, none]
  | .estate => [none, none]
  | .ediff => [none, none, none]
  | .eslide => [none, none]
  | .ehead => [none, none]
  | .edied => [none]
  | .cmsg => [none, some MCSTRLEN]
  | .pbye => [some MCSTRLEN]
  | .cflags => [none]
  | _ => []

/-- A text field with `rem` bytes to go. -/
def cutField (rem : Int) : Item UInt8 → Item UInt8
  | .fixed bs => .fixed bs
  | .text p len pad _ => .text p len pad rem

def fieldsAt (s : Mcx) (src : Src) : List (Item UInt8) :=
  match (layout s.curpv s.w.evt src).drop (s.w.type.toNat - 1) with
  | [] => []
  | f :: fs => cutField s.w.rem f :: fs

def left (s : Mcx) (src : Src) : List UInt8 := Fields.flat (fieldsAt s src)

/-- The flat packet of an event. A version 0 greeting has no version byte. -/
def encode (curpv : Int) (e : Mcsevt) (src : Src) : List UInt8 :=
  writeb (Int8.ofInt (seencode e).code) ++
    Fields.flat ((layout curpv e src).drop (if e = .pgreeting ∧ 0 = curpv then 1 else 0))

/-! ### Packets on the wire -/

/-- The packet that the server sends for an event: at version 0 the number of a death is 9. -/
def packet (curpv : Int) (e : Mcsevt) (src : Src) : List UInt8 :=
  if .edied = e ∧ 0 = curpv then 9 :: (encode curpv e src).tail else encode curpv e src

/-- The length of a packet, by its number. -/
def packetLen (curpv : Int) (num : UInt8) : Option ℕ :=
  match num.toNat with
  | 0 => some (1 + (if 0 = curpv then 64 else 65) + if 3 > curpv then 0 else 64 + if 6 > curpv then 0 else 1)
  | 1 => some 1
  | 2 => some 1
  | 3 => some 1028
  | 4 => some 7
  | 6 => some 8
  | 7 => some 74
  | 8 => some 10
  | 9 => some (if 0 = curpv then 2 else 7)
  | 10 => some 5
  | 11 => some 4
  | 12 => some 2
  | 13 => some 66
  | 14 => some 65
  | 15 => some 2
  | _ => none

/-- The event of a packet, by its number. -/
def packetEvent (curpv : Int) (num : UInt8) : Mcsevt :=
  match num.toNat with
  | 0 => .pgreeting
  | 1 => .ping
  | 2 => .lnew
  | 3 => .ldata
  | 4 => .ldim
  | 6 => .bupdate
  | 7 => .enew
  | 8 => .estate
  | 9 => if 0 = curpv then .edied else .ediff
  | 10 => .eslide
  | 11 => .ehead
  | 12 => .edied
  | 13 => .cmsg
  | 14 => .pbye
  | 15 => .cflags
  | _ => .invalid

/-- The grammar of the server: a packet has the length of its number. -/
def packets (curpv : Int) : Set (List UInt8) := Code.words (packetLen curpv)

/-! ### Positions of the writer -/

/-- What may remain of a string or array. -/
def Remains (n : Int) : Prop := 0 ≤ n ∧ n ≤ MCARRAYLEN

/-- The writer stands at a field of the event in progress, with something left of it to write. -/
def Placed (s : Mcx) : Prop :=
  sizes s.curpv s.w.evt = [] ∨
    ∃ i : ℕ, s.w.type = i + 1 ∧ ∃ k, (sizes s.curpv s.w.evt)[i]? = some k ∧ ∀ n, k = some n → 1 ≤ s.w.rem ∧ s.w.rem ≤ n

/-- `src` points at what the writer of event `e` casts it to. -/
def Mcsevt.Casts : Mcsevt → Src → Prop
  | .pgreeting, .gto _ => True
  | .ping, _ => True
  | .lnew, _ => True
  | .ldata, .cho _ => True
  | .ldim, .vec _ => True
  | .bupdate, .bup _ => True
  | .enew, .eno _ => True
  | .estate, .eup _ => True
  | .ediff, .eup _ => True
  | .eslide, .eup _ => True
  | .ehead, .eup _ => True
  | .edied, .eid _ => True
  | .cmsg, .mso _ => True
  | .pbye, .mso _ => True
  | .cflags, .cfg _ => True
  | _, _ => False

/-- `src` is what a call needs: the payload of the event in progress, or the number of an event to start. -/
def Takes (s : Mcx) (src : Src) : Prop :=
  if s.w.evt = .nothing then s.w.type ≠ 0 ∨ ∃ e, src = .evt e else s.w.evt.Casts src

/-- No length of a payload is negative, where there is a pointer. -/
def Src.NonNeg : Src → Prop
  | .gto g => (g.gnam.isSome → 0 ≤ g.gnln) ∧ (g.gmsg.isSome → 0 ≤ g.gmln)
  | .cho c => c.cdat.isSome → 0 ≤ c.cdln
  | .eno e => e.enam.isSome → 0 ≤ e.enln
  | .mso m => m.msg.isSome → 0 ≤ m.mlen
  | _ => True

/-- The senders of `client.c` set a pointer to null when its length has reached 0. -/
def Src.nullify : Src → Src
  | .gto g =>
    .gto { g with gnam := if g.gnln = 0 then none else g.gnam, gmsg := if g.gmln = 0 then none else g.gmsg }
  | .cho c => .cho { c with cdat := if c.cdln = 0 then none else c.cdat }
  | .eno e => .eno { e with enam := if e.enln = 0 then none else e.enam }
  | .mso m => .mso { m with msg := if m.mlen = 0 then none else m.msg }
  | src => src

/-- No event in progress, and none just ended. -/
def Mcx.Idle (s : Mcx) : Prop := s.w.evt = .nothing ∧ s.w.type = 0

/-- The bytes of a call, in the order they were stored. -/
def Swr.bytes (o : Swr) : List UInt8 := o.stores.map Prod.snd

/-- The result of a call is the number of the bytes it wrote, one after another from `dst` on. -/
def Swr.Counts (o : Swr) (qty : Int) : Prop :=
  o.stores = Turns.storesAt 0 o.bytes ∧ o.ret = o.bytes.length ∧ o.ret ≤ qty

/-- Calls with buffers of sizes `qs` until one answers with 0: what each of them leaves behind. -/
def pump : Mcx → Src → List Int → Option (List Swr)
  | _, _, [] => some []
  | s, src, q :: qs => do
    let o ← mcswr s q src
    if o.ret = 0 then some [o] else some (o :: (← pump o.ctx o.src.nullify qs))

/-- A string field of `rem` bytes is written to its end by a call with room for it. -/
def Whole (p : Option Ptr) (len rem : Int) : Prop := p = none ∨ rem ≤ len

/-- The three loops with a field whose writer answers with a negative count do not meet that field with
    too little room: the position of a block update, the state of a new entity and an entity state. -/
def Roomy (s : Mcx) (qty : Int) (src : Src) : Prop :=
  match s.w.evt, src with
  | .bupdate, _ => s.w.type = 1 → 6 ≤ qty
  | .enew, .eno e =>
    (s.w.type = 1 → 66 ≤ qty → qty ≤ 72 → ¬Whole e.enam e.enln MCSTRLEN) ∧
    (s.w.type = 2 → s.w.rem < qty → qty < s.w.rem + 8 → ¬Whole e.enam e.enln s.w.rem) ∧
    (s.w.type = 3 → 8 ≤ qty)
  | .estate, _ => (s.w.type = 1 → 2 ≤ qty → 9 ≤ qty) ∧ (s.w.type = 2 → 8 ≤ qty)
  | _, _ => True

/-- The event in progress was started without room for its number, and its writer dispatches through a
    table whose entry for field 0 is null. -/
def Unnumbered (s : Mcx) : Prop :=
  s.w.type = 0 ∧ (s.w.evt = .pgreeting ∨ s.w.evt = .ldata ∨ s.w.evt = .bupdate ∨ s.w.evt = .enew)

/-- The call starts an event and has no room for its number. -/
def Opens (s : Mcx) (qty : Int) (src : Src) : Prop := s.Idle ∧ qty = 0 ∧ ∃ e, src = .evt e ∧ seencode e ≠ .invalid

end ClassicX
