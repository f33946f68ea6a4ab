import ClassicX.Mccp.Types

/-! # Readers and writers of basic types, and serializer state (`mccp.c`)

A reader takes the pointer it reads from, a writer gives the bytes it stores from `dst` on. -/

namespace ClassicX

/-! ### Memory -/

/-- `while (0 != qty)` with a 16-bit `qty`: a negative one counts through the whole range. -/
def mcopy_ (src : Ptr) (qty : Int) : List UInt8 := Fields.piece (some src) 0 (qty % 65536).toNat

def mset (src : UInt8) (qty : Int) : List UInt8 := List.replicate (qty % 65536).toNat src

/-! ### Read -/

/-- Read a clamped signed byte. -/
def readb (src : Ptr) : Int8 := (src 0).toInt8

/-- Read an unclamped signed byte. -/
def readd (src : Ptr) : Int16 :=
  let dr := (src 0).toUInt16.toInt16
  if 127 < dr then dr - 256 else dr

/-- Read a clamped signed integer: the bytes of a little-endian word, swapped. -/
def readi (src : Ptr) : Int16 := (((src 0).toUInt16 <<< 8) ||| (src 1).toUInt16).toInt16

/-- The three turns of the loop, one for each of `x`, `y` and `z`. -/
def i3read (src : Ptr) : Mcvec := ⟨readi src, readi (src.incr 2), readi (src.incr 4)⟩

def readu (src : Ptr) : UInt8 := src 0

/-- The count of bytes taken, the bytes copied to `dst` if there is one, and the new state. -/
def readz {ε τ : Type} (ser : Mcseri ε τ) (src : Ptr) (qty : Int) (dst : Bool) :
    Int × List UInt8 × Mcseri ε τ :=
  let mr := min qty ser.rem
  (mr, if dst then mcopy_ src mr else [], { ser with rem := ser.rem - mr })

def reads {ε τ : Type} (ser : Mcseri ε τ) (src : Ptr) (qty : Int) (dst : Bool) :
    Int × List UInt8 × Mcseri ε τ :=
  readz ser src qty dst

/-! ### Write -/

def writeb (src : Int8) : List UInt8 := [src.toUInt8]

def writed (src : Int16) : List UInt8 :=
  let src := if 0 > src then src + 256 else src
  [(0xFF &&& src.toUInt16).toUInt8]

def writei (src : Int16) : List UInt8 :=
  let iw := src.toUInt16
  [(iw >>> 8).toUInt8, (0xFF &&& iw).toUInt8]

def writevec (src : Mcvec) : List UInt8 := writei src.x ++ writei src.y ++ writei src.z

def write3d (src : Mcvec) : List UInt8 := writed src.x ++ writed src.y ++ writed src.z

def writeu (src : UInt8) : List UInt8 := [src]

def write2u (src : Mchead) : List UInt8 := writeu src.yaw ++ writeu src.phi

/-- The count of bytes stored, the bytes, and the new state. -/
def writez {ε τ : Type} (ser : Mcseri ε τ) (qty : Int) (src : Option Ptr) (fill : UInt8) :
    Int × List UInt8 × Mcseri ε τ :=
  let mw := min qty ser.rem
  let bytes := match src with
    | some p => mcopy_ p mw
    | none => mset fill mw
  (mw, bytes, { ser with rem := ser.rem - mw })

/-- Strings are filled with spaces. -/
def writes {ε τ : Type} (ser : Mcseri ε τ) (qty : Int) (src : Option Ptr) : Int × List UInt8 × Mcseri ε τ :=
  writez ser qty src 0x20

/-- Arrays are filled with zeros. -/
def writex {ε τ : Type} (ser : Mcseri ε τ) (qty : Int) (src : Option Ptr) : Int × List UInt8 × Mcseri ε τ :=
  writez ser qty src 0

/-! ### State of a serializer -/

def tchng (ser : Mcseri Mccevt Mcctyp) (nxt : Mcctyp) : Mcseri Mccevt Mcctyp :=
  let ser := { ser with type := nxt }
  if nxt = .evtno then { ser with evt := .nothing } else ser

def tchngs (ser : Mcseri Mccevt Mcctyp) (ts : Mcctyp) : Mcseri Mccevt Mcctyp :=
  tchng { ser with rem := MCSTRLEN } ts

def tincr (ser : Mcseri Mcsevt Int) (tlen : Int) : Mcseri Mcsevt Int :=
  { ser with type := ser.type + 1, rem := tlen }

/-- Reset the type being copied: only the event is. -/
def treset {ε τ : Type} [Zero ε] (ser : Mcseri ε τ) : Mcseri ε τ := { ser with evt := 0 }

/-! ### Packet numbers -/

/-- The client event of each packet number. -/
def dec : List Mccevt :=
  [.greeting, .nothing, .nothing, .nothing, .nothing, .blkedit, .nothing, .nothing, .plyrstat, .nothing,
    .nothing, .nothing, .nothing, .chatmsg, .nothing, .nothing]

def cedecode (pnc : Int) : Mccevt :=
  if 0 > pnc ∨ dec.length ≤ pnc then .nothing else dec.getD pnc.toNat .nothing

def seencode : Mcsevt → Pnum
  | .invalid => .invalid
  | .nothing => .invalid
  | .pgreeting => .greeting
  | .ping => .ping
  | .lnew => .newlvl
  | .ldata => .lvldata
  | .ldim => .lvlsize
  | .bupdate => .blkch
  | .enew => .newactor
  | .estate => .actorstat
  | .ediff => .actorch
  | .eslide => .actorslid
  | .ehead => .actorhead
  | .edied => .actordied
  | .cmsg => .chatmsg
  | .pbye => .bye
  | .cflags => .userch

/-- The maximum server event of each protocol version. -/
def mcsemax : List Mcsevt := [.ehead, .cmsg, .pbye, .pbye, .pbye, .pbye, .cflags, .cflags]

end ClassicX
