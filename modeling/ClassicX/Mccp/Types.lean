import ClassicX.Lib.Fields

/-! # Types of the protocol library (`mccp.h`, `type.h`)

`mcb` and `mci` values that are lengths, counters or positions are integers: no computation on them
leaves the range of their C type where the library is used as it asks to be. What goes on the wire has its
machine type: `Int8` for `mcb`, `UInt8` for `mcu`, `Int16` for `mci` and `mcd`.

The initial value of everything is the zeroed memory of C. -/

namespace ClassicX

/-- What a byte or character pointer points at, by the offset from it. -/
abbrev Ptr := Fields.Source UInt8

/-- Max supported protocol version. -/
def MCPVMAX : Int := 7

/-- Size in bytes of a string. -/
def MCSTRLEN : Int := 64

/-- Size in bytes of an array. -/
def MCARRAYLEN : Int := 1024

/-! ### Enumerations -/

/-- Error numbers are passed as NOT. -/
inductive Mcerr
  | unknown | unsupported | invalidop | outofrange | notenough | vmismatch
  deriving DecidableEq

def Mcerr.code : Mcerr → Int
  | .unknown => -127
  | .unsupported => -126
  | .invalidop => -125
  | .outofrange => -124
  | .notenough => -123
  | .vmismatch => -122

def MCEINVALIDOP : Int := Mcerr.invalidop.code
def MCENOTENOUGH : Int := Mcerr.notenough.code

/-- (Block) update mode. -/
inductive Mcumod
  | clear | set
  deriving DecidableEq

def Mcumod.code : Mcumod → Int8
  | .clear => 0
  | .set => 1

inductive Mccevt
  | invalid | nothing | greeting | blkedit | plyrstat | chatmsg
  deriving DecidableEq

inductive Mcctyp
  | invalid | evtno | version | name | blkch | actrno | actrstat | msg | pass | cflgs
  deriving DecidableEq

/-- The number of a client type: `MCCTINVALID` is -1. -/
def Mcctyp.code : Mcctyp → Int
  | .invalid => -1
  | .evtno => 0
  | .version => 1
  | .name => 2
  | .blkch => 3
  | .actrno => 4
  | .actrstat => 5
  | .msg => 6
  | .pass => 7
  | .cflgs => 8

inductive Mcsevt
  | invalid | nothing | pgreeting | ping | lnew | ldata | ldim | bupdate | enew | estate | ediff | eslide
  | ehead | edied | cmsg | pbye | cflags
  deriving DecidableEq

/-- The number of the server events from `MCSENOTHING` on. -/
def MCSECOUNT : Int := 16

/-- The number of a server event: `MCSEINVALID` is -1. -/
def Mcsevt.code : Mcsevt → Int
  | .invalid => -1
  | .nothing => 0
  | .pgreeting => 1
  | .ping => 2
  | .lnew => 3
  | .ldata => 4
  | .ldim => 5
  | .bupdate => 6
  | .enew => 7
  | .estate => 8
  | .ediff => 9
  | .eslide => 10
  | .ehead => 11
  | .edied => 12
  | .cmsg => 13
  | .pbye => 14
  | .cflags => 15

inductive Pnum
  | invalid | greeting | ping | newlvl | lvldata | lvlsize | blkedit | blkch | newactor | actorstat | actorch
  | actorslid | actorhead | actordied | chatmsg | bye | userch
  deriving DecidableEq

def Pnum.code : Pnum → Int
  | .invalid => -1
  | .greeting => 0
  | .ping => 1
  | .newlvl => 2
  | .lvldata => 3
  | .lvlsize => 4
  | .blkedit => 5
  | .blkch => 6
  | .newactor => 7
  | .actorstat => 8
  | .actorch => 9
  | .actorslid => 10
  | .actorhead => 11
  | .actordied => 12
  | .chatmsg => 13
  | .bye => 14
  | .userch => 15

instance : Zero Mccevt := ⟨.nothing⟩
instance : Zero Mcctyp := ⟨.evtno⟩
instance : Zero Mcsevt := ⟨.nothing⟩

@[simp] theorem Mccevt.zero_eq : (0 : Mccevt) = .nothing := rfl
@[simp] theorem Mcctyp.zero_eq : (0 : Mcctyp) = .evtno := rfl
@[simp] theorem Mcsevt.zero_eq : (0 : Mcsevt) = .nothing := rfl

/-! ### Structures -/

structure Mcvec where
  x : Int16 := 0
  y : Int16 := 0
  z : Int16 := 0
  deriving DecidableEq

structure Mchead where
  yaw : UInt8 := 0
  phi : UInt8 := 0
  deriving DecidableEq

/-- Protocol greeting out. -/
structure Mcgto where
  gnam : Option Ptr
  gnln : Int
  gpv : Int8
  gcfg : UInt8
  gmln : Int
  gmsg : Option Ptr

/-- Level chunk out. -/
structure Mccho where
  cdat : Option Ptr
  cdln : Int
  clen : Int
  cpct : Int8

structure Mcbup where
  bpos : Mcvec := {}
  umod : Int8 := 0
  bnew : Int8 := 0
  deriving DecidableEq

/-- Entity state/update. -/
structure Mceup where
  eno : Int8 := 0
  epos : Mcvec := {}
  head : Mchead := {}
  deriving DecidableEq

/-- Entity, as `mceni` and `mceno` lay it out: an `Mceup` and a name. -/
structure Mcent extends Mceup where
  enln : Int := 0
  enam : Option Ptr := none

/-- Message out. -/
structure Mcmso where
  msg : Option Ptr
  mlen : Int
  eno : Int8 := 0

/-- A serializer: bytes that remain of a string or array, event and type. `r` keeps the client type to
    read next, `w` the number of the field to write next. -/
structure Mcseri (ε τ : Type) where
  rem : Int
  evt : ε
  type : τ
  deriving DecidableEq

structure Mcx where
  curpv : Int
  pstate : Int
  flg : UInt8 × UInt8
  r : Mcseri Mccevt Mcctyp
  w : Mcseri Mcsevt Int
  deriving DecidableEq

instance : Inhabited Mcx := ⟨⟨0, 0, (0, 0), ⟨0, 0, 0⟩, ⟨0, 0, 0⟩⟩⟩

/-- What the `void *src` of the server writer points at: the number of the event to start, or the
    structure the writer of the event in progress takes. -/
inductive Src
  | null
  | evt (e : Mcsevt)
  | gto (g : Mcgto)
  | cho (c : Mccho)
  | vec (v : Mcvec)
  | bup (b : Mcbup)
  | eno (e : Mcent)
  | eup (e : Mceup)
  | eid (b : Int8)
  | mso (m : Mcmso)
  | cfg (u : UInt8)

end ClassicX
