import ClassicX.Spec.Packets
import ClassicX.Theorems.Echoes

/-! # What the server is for

The server without bytes, buffers and fields: what it remembers of its player between two packets, and what it answers to a
packet. A packet has no answer where the behaviour of the program is not defined: where it needs the name of the player
and there is none, or the length of one that was too long. -/

namespace ClassicX
open Formats.Format

/-! ### Texts -/

/-- A text in its field: cut to 64 bytes, and padded with spaces. -/
def Str.of (bs : List UInt8) : Str := ⟨(bs ++ List.replicate 64 0x20).take 64, by simp⟩

/-- A line in its field, which ends before its first NUL. -/
def Str.line (bs : List UInt8) : Str := Str.of ((bs.take 64).takeWhile (· ≠ 0))

/-- The bytes of a literal. -/
def text (s : String) : List UInt8 := s.toList.map fun c => UInt8.ofNat c.toNat

/-- The array from `i` on: at most 1024 bytes up to `len`, and zeros. -/
def Arr.of (p : Ptr) (len : Int) : Arr := ⟨(arrField (some p) len).flat, length_arrField _ _⟩

/-! ### The player -/

/-- What is known of the name of the player: none was given, the last one was too long, or the last one. -/
inductive Naming
  | unknown
  | refused
  | known (name : { bs : List UInt8 // 1 ≤ bs.length ∧ bs.length ≤ 20 })
  deriving DecidableEq

theorem refused_ne : Naming.refused ≠ .unknown := Naming.noConfusion

theorem known_unlike (name : { bs : List UInt8 // 1 ≤ bs.length ∧ bs.length ≤ 20 }) :
    Naming.known name ≠ .unknown ∧ Naming.known name ≠ .refused := ⟨Naming.noConfusion, Naming.noConfusion⟩

/-- The name that a greeting gives: without the spaces at its end, but for its first character. -/
def Naming.of (name : Str) : Naming :=
  .known ⟨name.val.take (min 20 (max 1 (trimmed name.val))), by
    have hname := name.property
    rw [List.length_take]
    omega⟩

/-- What the server remembers between two packets. A player who takes part has given a name, and is sent the level again
    after 1024 states. -/
structure Player where
  pv : Int := 0
  plays : Bool := false
  name : Naming := .unknown
  epos : Mcvec := {}
  head : Mchead := {}
  ctr : ℕ := 0
  version : Known pv
  named : plays = true → name ≠ .unknown := by simp
  counted : plays = true → ctr ≤ 1024 := by simp

/-- What the server remembers before the first packet. -/
def Player.nobody : Player where
  version := known_zero

/-- An answer, and what is remembered after it. -/
structure Answer where
  next : Player
  heard : List (Heard next.pv)

/-! ### What is said -/

section Sayings
variable {v : Int}

def Heard.ping : Heard v := ⟨.ping, ()⟩

def Heard.chat (eno : Int8) (bs : List UInt8) : Heard v := ⟨.cmsg, (eno, Str.line bs)⟩

def Heard.bye (bs : List UInt8) : Heard v := ⟨.pbye, Str.line bs⟩

def Heard.spawn (eno : Int8) (name : List UInt8) (epos : Mcvec) (head : Mchead) : Heard v :=
  ⟨.enew, (eno, Str.of name, epos, head)⟩

def Heard.died (eno : Int8) : Heard v := ⟨.edied, eno⟩

def Heard.state (eno : Int8) (epos : Mcvec) (head : Mchead) : Heard v := ⟨.estate, (eno, epos, head)⟩

def Heard.block (bpos : Mcvec) (bnew : Int8) : Heard v := ⟨.bupdate, (bpos, bnew)⟩

def Heard.greeting (v : Int) : Heard v :=
  ⟨.pgreeting, (give _ (Int8.ofInt v), Str.line (text "MCCv0 Server on an MSP430G2553 with 512 Bytes of RAM!"),
    give _ (Str.line (text "Test message!")), give _ 0)⟩

/-- The level, in packets of 1024 bytes, and both entities. -/
def Heard.joins (v : Int) (l : Lvl) : List (Heard v) :=
  [.greeting v, ⟨.lnew, ()⟩] ++
    (List.range l.chunks).map (fun j => ⟨.ldata, (Int16.ofInt (l.clen j), Arr.of (l.cdat.incr (1024 * j)) (l.clen j), 0)⟩) ++
    [⟨.ldim, l.dim⟩, .spawn (-1) (text "You") ⟨512, 492, 512⟩ ⟨224, 64⟩, .spawn 0 (text "&8You") ⟨512, 512, 512⟩ ⟨96, 64⟩,
      .ping]

end Sayings

/-! ### Greetings -/

theorem of_unlike (name : Str) : Naming.of name ≠ .unknown ∧ Naming.of name ≠ .refused := known_unlike _

/-- A name was given, by a client of version `v`. Who is refused does not take part any more. -/
def Player.introduces (s : Player) (v : Int) (version : Known v) (name : Naming) (hname : name ≠ .unknown) : Player :=
  { s with
    pv := v
    plays := s.plays && name ≠ .refused
    name := name
    version := version
    named := fun _ => hname
    counted := fun h => s.counted (Bool.and_eq_true_iff.mp h).1 }

/-- The player takes part, and was sent the level. -/
def Player.joins (s : Player) (hname : s.name ≠ .unknown) : Player :=
  { s with plays := true, ctr := 0, named := fun _ => hname, counted := by simp }

/-- A greeting of version `v`. The level is sent after the last of its fields: a name that is too long is refused, and keeps
    the player out where it is the last. -/
def Player.greeted (l : Lvl) (s : Player) (v : Int) (version : Known v) (name : Str) : Answer :=
  if trimmed name.val ≤ 20 then
    ⟨(s.introduces v version (.of name) (of_unlike name).1).joins (of_unlike name).1, Heard.joins v l⟩
  else
    let next := s.introduces v version .refused refused_ne
    let bye : Heard v := .bye (text "Your name is too long!")
    if 3 > v then ⟨next, ([bye] : List (Heard v))⟩ else ⟨next.joins refused_ne, (bye :: Heard.joins v l : List (Heard v))⟩

/-! ### States -/

/-- The state is remembered, but the head is not where the state is taken for the one before. -/
def Player.moved (s : Player) (epos : Mcvec) (head : Mchead) : Player :=
  let same := mcescmp { epos := s.epos, head := s.head } { epos := epos, head := head } = .eq
  { s with epos := epos, head := if same then s.head else head }

/-- The clone is at the opposite side, and looks the other way. Version 0 has no differences. -/
def Player.moves (s : Player) (epos : Mcvec) (head : Mchead) : List (Heard s.pv) :=
  let there : Mcvec := ⟨512 - epos.x, epos.y, 512 - epos.z⟩
  let way : Mcvec := ⟨s.epos.x - epos.x, epos.y - s.epos.y, s.epos.z - epos.z⟩
  let twin : Mchead := { head with yaw := head.yaw + 128 }
  let d := mcescmp { epos := s.epos, head := s.head } { epos := epos, head := head }
  if d = .eq then []
  else if h : 0 = s.pv then [.state 0 there twin]
  else
    match d with
    | .eq => []
    | .head => [⟨.ehead, ((0 : Int8), twin)⟩]
    | .pos => [⟨.eslide, ((0 : Int8), way.diff)⟩]
    | .all => [⟨.ediff, ⟨((0 : Int8), way.diff, twin), h⟩⟩]
    | .big => [.state 0 there twin]

/-- Both entities again, under the name of the player. -/
def Player.respawns (s : Player) : Option (List (Heard s.pv)) :=
  let again name := [.died 0, .greeting s.pv, .spawn (-1) name { s.epos with y := s.epos.y - 20 } s.head,
    .spawn 0 name s.epos s.head, .ping]
  match s.name with
  | .unknown => some (again [])
  | .refused => none
  | .known name => some (again name.val)

/-- After 512 states both entities are sent again. -/
def Player.again (s : Player) : Option (List (Heard s.pv)) := if s.ctr = 512 then s.respawns else some []

def Player.counts (s : Player) (n : ℕ) (counted : s.plays = true → n ≤ 1024) : Player :=
  { s with ctr := n, counted := counted }

def Player.state (l : Lvl) (s : Player) (epos : Mcvec) (head : Mchead) : Option Answer :=
  if hplays : s.plays = false then some ⟨s.counts (s.ctr + 1) (by simp [hplays]), [.ping]⟩
  else if hctr : s.ctr < 1024 then
    (s.moved epos head).again.map fun (again : List (Heard s.pv)) =>
      ⟨(s.moved epos head).counts (s.ctr + 1) fun _ => hctr, (s.moves epos head ++ [.ping] ++ again : List (Heard s.pv))⟩
  else some ⟨(s.moved epos head).counts 1 (by simp), (s.moves epos head ++ [.ping] ++ Heard.joins s.pv l : List (Heard s.pv))⟩

/-! ### Messages -/

/-- The commands, explained. -/
def Player.help : List String := [
  "Available commands: &7/q - quit; /r - respawn shadow;",
  "| &7/s - respawn; /t - print alphanumeric;",
  "| &7/u - print symbols except ampersand;",
  "| &7/v - print text with ampersands; /w - print one ampersand;",
  "| &7/x - print \"'\" and control characters except NUL;",
  "| &7/y - teleport."]

/-- What answers the command `msg` that starts with `c`. -/
def Player.orders (s : Player) (msg : Str) (c : UInt8) : Option (List (Heard s.pv)) :=
  match Char.ofNat c.toNat with
  | 'p' =>
    let u0 := 10 * (0xF &&& msg.val.getD 2 0)
    let u1 := 0xF &&& msg.val.getD 3 0
    if u0 ≠ 0 ∧ u1 ≠ 0 then
      some [.block ⟨mcbcec s.epos.x, mcbcec s.epos.y, mcbcec s.epos.z⟩ (u0.toInt8 + u1.toInt8)]
    else some [.chat (-1) (text "Invalid usage.")]
  | 'q' => some [.bye (text "You quit.")]
  | 'r' => some [.died 0, .spawn 0 (text "&8You") s.epos s.head]
  | 's' =>
    match s.name with
    | .known name => some [.spawn (-1) name.val ⟨512, 492, 512⟩ ⟨224, 64⟩]
    | _ => none
  | 't' => some [.chat (-1) (text "0123456789 ABCDEFGHIJKLMNOPQRSTUVWXYZ abcdefghijklmnopqrstuvwxyz")]
  | 'u' => some [.chat (-1) (text "~`!@#$%^*()-_+=\x7b\x7d[]|\\:;\"'<,>.?/")]
  | 'v' => some [.chat (-1) (text "&4g&z&&&*a& q")]
  | 'w' => some [.chat (-1) (text "&")]
  | 'x' => some [.chat (-1) (0x27 :: (List.range 31).flatMap fun c => [UInt8.ofNat (c + 1), 0x27])]
  | 'y' => some [.state (-1) ⟨512, 512, 512⟩ ⟨224, 64⟩]
  | _ => some (Player.help.map fun line => .chat (-1) (text line))

/-- A player who quits does not take part any more. -/
def Player.quits (s : Player) (c : UInt8) : Player :=
  { s with
    plays := s.plays && c != 0x71
    named := fun h => s.named (Bool.and_eq_true_iff.mp h).1
    counted := fun h => s.counted (Bool.and_eq_true_iff.mp h).1 }

/-- A message is echoed behind the name of the player, unless it is a command. -/
def Player.message (s : Player) (msg : Str) : Option Answer :=
  if s.name = .unknown then none
  else if msg.val.getD 0 0 = 0x2F then
    (s.orders msg (msg.val.getD 1 0)).map fun heard => ⟨s.quits (msg.val.getD 1 0), heard ++ [.ping]⟩
  else
    match s.name with
    | .known name => some ⟨s, [.chat 0 (name.val ++ [0x3A, 0x20] ++ msg.val), .ping]⟩
    | _ => none

/-! ### Packets -/

theorem known_of {v : Int} (known : 1 ≤ v ∧ v ≤ 7) : Known v := ⟨by omega, known.2⟩

def Player.answer (l : Lvl) (s : Player) : Asked → Option Answer
  | .greeting0 name _ => some (s.greeted l 0 known_zero name)
  | .greeting v known name _ _ => some (s.greeted l v (known_of known) name)
  | .blkedit upd =>
    if s.name = .unknown then none else some ⟨s, [.block upd.bpos (if upd.umod = 0 then 0 else upd.bnew), .ping]⟩
  | .plyrstat _ epos head => s.state l epos head
  | .chatmsg _ msg => s.message msg

/-- The answers to a sequence of packets up to the first that has none, and what is remembered after the last if all of them
    have one. -/
def Player.answers (l : Lvl) : Player → List Asked → List Answer × Option Player
  | s, [] => ([], some s)
  | s, a :: as =>
    match s.answer l a with
    | none => ([], none)
    | some x => (x :: (x.next.answers l as).1, (x.next.answers l as).2)

/-- The answers to requests of several packets. After a packet that has no answer there are none. -/
def Player.replies (l : Lvl) : Player → List (List Asked) → List (List Answer)
  | _, [] => []
  | s, as :: ass => (s.answers l as).1 :: ((s.answers l as).2.map fun s' => s'.replies l ass).getD []

/-- The bytes of an answer. -/
def Answer.bytes (x : Answer) : List UInt8 := x.heard.flatMap (Heard.form x.next.pv).write

end ClassicX
