import ClassicX.Mccp.Reader

/-! # What a client sends

A client packet is a sequence of parts: the packet number, fields of fixed size, and strings. A client
delivers the parts of its packets in calls: a fixed field in one call, a string in any number of them.
Every call comes with the answer the reader owes to it. -/

namespace ClassicX

/-- A string on the wire. -/
abbrev Str := { bs : List UInt8 // bs.length = 64 }

inductive CPacket
  /-- the greeting of a version 0 client starts with its name, which starts with a printable character -/
  | greeting0 (name : Str) (printable : 32 ≤ name.val.head!)
  /-- the password is there from version 3 on, the flags are there from version 6 on -/
  | greeting (v : Int) (known : 1 ≤ v ∧ v ≤ 7) (name pass : Str) (flags : Int8)
  | blkedit (upd : Mcbup)
  | plyrstat (eno : Int8) (epos : Mcvec) (head : Mchead)
  | chatmsg (eno : Int8) (msg : Str)

/-- A part of a packet: its type, its bytes, and what the reader stores for it. The bytes of a string are
    stored as they are. -/
inductive Part
  | fixed (t : Mcctyp) (bs : List UInt8) (v : Val)
  | string (t : Mcctyp) (bs : List UInt8)

def Part.type : Part → Mcctyp
  | .fixed t _ _ => t
  | .string t _ => t

def Part.bytes : Part → List UInt8
  | .fixed _ bs _ => bs
  | .string _ bs => bs

/-- The first part of a packet. -/
def numberPart (n : UInt8) (e : Mccevt) : Part := .fixed .evtno [n] (.evt e)

def CPacket.parts : CPacket → List Part
  -- The first character of the name is delivered in place of a version.
  | .greeting0 name _ =>
    [numberPart 0 .greeting, .fixed .version [name.val.head!] (.ver 0), .string .name name.val.tail]
  | .greeting v _ name pass flags =>
    numberPart 0 .greeting :: .fixed .version [UInt8.ofNat v.toNat] (.ver v) :: .string .name name.val ::
      if 3 > v then [] else .string .pass pass.val ::
        if 6 > v then [] else [.fixed .cflgs (writeb flags) (.flg flags)]
  | .blkedit upd =>
    [numberPart 5 .blkedit, .fixed .blkch (writevec upd.bpos ++ writeb upd.umod ++ writeb upd.bnew) (.bup upd)]
  | .plyrstat eno epos head =>
    [numberPart 8 .plyrstat, .fixed .actrno (writeb eno) (.eno eno),
      .fixed .actrstat (writevec epos ++ write2u head) (.stat epos head)]
  | .chatmsg eno msg => [numberPart 13 .chatmsg, .fixed .actrno (writeb eno) (.eno eno), .string .msg msg.val]

def CPacket.bytes (p : CPacket) : List UInt8 := p.parts.flatMap Part.bytes

/-- What comes next: at the end of a packet its number. -/
def nextType : List Part → Mcctyp
  | [] => .evtno
  | p :: _ => p.type

/-- `src` points at `bs`. -/
def Holds (src : Ptr) (bs : List UInt8) : Prop := ∀ i : ℕ, ∀ h : i < bs.length, src i = bs[i]

/-- A call, and what it has to answer: the type, the value stored at `dst`, and the protocol version. -/
structure Ask where
  src : Ptr
  qty : ℕ
  type : Mcctyp
  val : Val
  pv : Int

/-- The protocol version when a value was read. -/
def Val.pv (pv : Int) : Val → Int
  | .ver v => v
  | _ => pv

/-- The calls deliver the parts: fixed fields whole, strings in pieces. -/
inductive Delivers : Int → List Part → List Ask → Prop
  | nil {pv} : Delivers pv [] []
  | fixed {pv t bs v ps as} (src : Ptr) : Holds src bs → Delivers (v.pv pv) ps as →
      Delivers pv (.fixed t bs v :: ps) (⟨src, bs.length, nextType ps, v, v.pv pv⟩ :: as)
  | piece {pv t a b ps as} (src : Ptr) : Holds src a → b ≠ [] → Delivers pv (.string t b :: ps) as →
      Delivers pv (.string t (a ++ b) :: ps) (⟨src, a.length, t, .str a, pv⟩ :: as)
  | last {pv t bs ps as} (src : Ptr) : Holds src bs → bs ≠ [] → Delivers pv ps as →
      Delivers pv (.string t bs :: ps) (⟨src, bs.length, nextType ps, .str bs, pv⟩ :: as)

inductive Answers : Mcx → List Ask → Mcx → Prop
  | nil {s} : Answers s [] s
  | cons {s s' s'' a as} : mcsread s a.src a.qty true = some (a.type, s', some a.val) → s'.curpv = a.pv →
      Answers s' as s'' → Answers s (a :: as) s''

/-- Between two packets, with a protocol version the library knows. -/
structure AtBoundary (s : Mcx) : Prop where
  evt : s.r.evt = .nothing
  type : s.r.type = .evtno
  pv : 0 ≤ s.curpv ∧ s.curpv ≤ MCPVMAX

end ClassicX
