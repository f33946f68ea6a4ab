import ClassicX.Lib.Formats
import ClassicX.Mccp.Packet
import ClassicX.Theorems.Codec

/-! # Packets, for those who read them

What a client hears in a packet of the server, and the server in a packet of a client: records of values, with their
formats. A packet of the server has what its event has at the version of the client. -/

namespace ClassicX
open Formats Formats.Format

/-- A value that is there from version `n` on. -/
abbrev Since (n v : Int) (β : Type) := Given (n ≤ v) β

/-- An array on the wire. -/
abbrev Arr := { bs : List UInt8 // bs.length = 1024 }

/-- The differences of three coordinates. -/
abbrev Diff := Int8 × Int8 × Int8

/-! ### Values -/

namespace Form

theorem toInt8_toUInt8 (b : Int8) : b.toUInt8.toInt8 = b := by simp

theorem word_bytes_toInt16 (a b : UInt8) : writei ((a.toUInt16 <<< 8 ||| b.toUInt16).toInt16) = [a, b] :=
  writei_readi fun i => if i = 0 then a else b

def int8 : Format UInt8 Int8 := letter.map ⟨UInt8.toInt8, Int8.toUInt8, fun b => UInt8.toUInt8_toInt8 b, toInt8_toUInt8⟩

def int16 : Format UInt8 Int16 := (seq letter letter).map {
  toFun x := (x.1.toUInt16 <<< 8 ||| x.2.toUInt16).toInt16
  invFun i := ((i.toUInt16 >>> 8).toUInt8, (0xFF &&& i.toUInt16).toUInt8)
  left_inv x := by
    obtain ⟨ha, hb⟩ := List.cons.inj (word_bytes_toInt16 x.1 x.2)
    exact Prod.ext ha (List.cons.inj hb).1
  right_inv i := by simp only [word_bytes, Int16.toInt16_toUInt16] }

def vec : Format UInt8 Mcvec := (seq int16 (seq int16 int16)).map {
  toFun x := ⟨x.1, x.2.1, x.2.2⟩
  invFun v := (v.x, v.y, v.z)
  left_inv _ := rfl
  right_inv _ := rfl }

def head : Format UInt8 Mchead := (seq letter letter).map {
  toFun x := ⟨x.1, x.2⟩
  invFun h := (h.yaw, h.phi)
  left_inv _ := rfl
  right_inv _ := rfl }

def diff : Format UInt8 Diff := seq int8 (seq int8 int8)

def str : Format UInt8 Str := exactly 64

def arr : Format UInt8 Arr := exactly 1024

theorem write_int8 (b : Int8) : int8.write b = writeb b := rfl

theorem write_int16 (i : Int16) : int16.write i = writei i := rfl

theorem write_vec (v : Mcvec) : vec.write v = writevec v := by
  simp [vec, Format.map, seq, write_int16, writevec]

theorem write_head (h : Mchead) : head.write h = write2u h := rfl

theorem low_byte (w : UInt16) : (0xFF &&& w).toUInt8 = w.toUInt8 := by
  apply UInt8.toNat_inj.mp
  have hand : ∀ n : ℕ, 255 &&& n = n % 256 := by
    intro n
    rw [Nat.and_comm, Nat.and_two_pow_sub_one_eq_mod n 8]
  simp [hand]

/-- Of a difference, the low byte is on the wire. -/
theorem writed_eq (d : Int16) : writed d = writeb d.toInt8 := by
  have hlow : ∀ i : Int16, i.toUInt16.toUInt8 = i.toInt8.toUInt8 := by
    intro i
    apply UInt8.toBitVec_inj.mp
    have hleft : i.toUInt16.toUInt8.toBitVec = i.toBitVec.setWidth 8 := rfl
    have hright : i.toInt8.toUInt8.toBitVec = i.toBitVec.signExtend 8 := rfl
    rw [hleft, hright, BitVec.signExtend_eq_setWidth_of_le _ (by decide)]
  have hwrap : (d + 256).toInt8 = d.toInt8 := by
    rw [Int16.toInt8_add]
    simp
  rw [writed, writeb, low_byte, hlow]
  split
  · rw [hwrap]
  · rfl

end Form

/-- The differences as they are on the wire. -/
def Mcvec.diff (v : Mcvec) : Diff := (v.x.toInt8, v.y.toInt8, v.z.toInt8)

theorem Form.write_diff (v : Mcvec) : Form.diff.write v.diff = write3d v := by
  rw [write3d, Form.writed_eq, Form.writed_eq, Form.writed_eq, List.append_assoc]
  rfl

/-! ### What a client hears -/

/-- What the packet of an event says at version `v`. There are no differences at version 0. -/
def Content (v : Int) : Mcsevt → Type
  | .invalid => Empty
  | .nothing => Empty
  | .pgreeting => Given (0 ≠ v) Int8 × Str × Since 3 v Str × Since 6 v UInt8
  | .ping => Unit
  | .lnew => Unit
  | .ldata => Int16 × Arr × Int8
  | .ldim => Mcvec
  | .bupdate => Mcvec × Int8
  | .enew => Int8 × Str × Mcvec × Mchead
  | .estate => Int8 × Mcvec × Mchead
  | .ediff => Subtype fun _ : Int8 × Diff × Mchead => 0 ≠ v
  | .eslide => Int8 × Diff
  | .ehead => Int8 × Mchead
  | .edied => Int8
  | .cmsg => Int8 × Str
  | .pbye => Str
  | .cflags => UInt8

def Content.form (v : Int) : ∀ e, Format UInt8 (Content v e)
  | .invalid => void
  | .nothing => void
  | .pgreeting => seq (given (0 ≠ v) Form.int8) (seq Form.str (seq (given (3 ≤ v) Form.str) (given (6 ≤ v) letter)))
  | .ping => Format.nothing
  | .lnew => Format.nothing
  | .ldata => seq Form.int16 (seq Form.arr Form.int8)
  | .ldim => Form.vec
  | .bupdate => seq Form.vec Form.int8
  | .enew => seq Form.int8 (seq Form.str (seq Form.vec Form.head))
  | .estate => seq Form.int8 (seq Form.vec Form.head)
  | .ediff => refine (seq Form.int8 (seq Form.diff Form.head)) fun _ => 0 ≠ v
  | .eslide => seq Form.int8 Form.diff
  | .ehead => seq Form.int8 Form.head
  | .edied => Form.int8
  | .cmsg => seq Form.int8 Form.str
  | .pbye => Form.str
  | .cflags => letter

/-- The packet number of an event. -/
def number (v : Int) (e : Mcsevt) : UInt8 := if .edied = e ∧ 0 = v then 9 else UInt8.ofNat (seencode e).code.toNat

theorem packetEvent_number {v : Int} (e : Mcsevt) (c : Content v e) : packetEvent v (number v e) = e := by
  cases e with
  | invalid => exact c.elim
  | nothing => exact c.elim
  | ediff => exact if_neg c.property
  | edied =>
    by_cases hv : 0 = v
    · rw [number, if_pos ⟨rfl, hv⟩]
      exact if_pos hv
    · rw [number, if_neg fun h => hv h.2]
      rfl
  | _ => rfl

/-- What a packet tells a client of version `v`. -/
abbrev Heard (v : Int) := Σ e, Content v e

def Heard.form (v : Int) : Format UInt8 (Heard v) := tagged (number v) (packetEvent v) packetEvent_number (Content.form v)

theorem Heard.proper (v : Int) : (Heard.form v).Proper := fun _ => List.cons_ne_nil _ _

/-! ### What the server is asked -/

/-- A packet of a client. The password and the flags are there where they are sent. -/
inductive Asked
  | greeting0 (name : Str) (printable : 32 ≤ name.val.head!)
  | greeting (v : Int) (known : 1 ≤ v ∧ v ≤ 7) (name : Str) (pass : Since 3 v Str) (flags : Since 6 v Int8)
  | blkedit (upd : Mcbup)
  | plyrstat (eno : Int8) (epos : Mcvec) (head : Mchead)
  | chatmsg (eno : Int8) (msg : Str)

/-- The packet, with anything for what is not sent. -/
def Asked.packet : Asked → CPacket
  | .greeting0 name printable => .greeting0 name printable
  | .greeting v known name pass flags =>
    .greeting v known name (pass.val.getD ⟨List.replicate 64 0, rfl⟩) (flags.val.getD 0)
  | .blkedit upd => .blkedit upd
  | .plyrstat eno epos head => .plyrstat eno epos head
  | .chatmsg eno msg => .chatmsg eno msg

/-- A version that its byte tells. -/
abbrev Version := { v : Int // 1 ≤ v ∧ v ≤ 7 }

theorem version_byte (v : Version) : (UInt8.ofNat v.val.toNat).toNat = v.val.toNat := by
  have hv := v.property
  rw [UInt8.toNat_ofNat']
  omega

theorem version_le {b : UInt8} : 1 ≤ b ∧ b ≤ 7 ↔ (1 : Int) ≤ b.toNat ∧ (b.toNat : Int) ≤ 7 := by
  have h1 : (1 : UInt8).toNat = 1 := rfl
  have h7 : (7 : UInt8).toNat = 7 := rfl
  rw [UInt8.le_iff_toNat_le, UInt8.le_iff_toNat_le, h1, h7]
  omega

def Form.version : Format UInt8 Version := (letter.refine fun b => 1 ≤ b ∧ b ≤ 7).map {
  toFun b := ⟨b.val.toNat, version_le.mp b.property⟩
  invFun v := ⟨UInt8.ofNat v.val.toNat, version_le.mpr (by
    have hv := v.property
    rw [version_byte]
    omega)⟩
  left_inv b := by simp
  right_inv v := by
    have hv := v.property
    refine Subtype.ext ?_
    simp only [version_byte]
    omega }

/-- The contents of a packet of a client. A greeting of version 0 starts with its name. -/
def Asked.Content : Mccevt → Type
  | .greeting => { name : Str // 32 ≤ name.val.head! } ⊕ Σ v : Version, Str × Since 3 v Str × Since 6 v Int8
  | .blkedit => Mcvec × Int8 × Int8
  | .plyrstat => Int8 × Mcvec × Mchead
  | .chatmsg => Int8 × Str
  | _ => Empty

theorem Form.old_head (name : { name : Str // 32 ≤ name.val.head! }) : ∃ b ∈ name.val.val.head?, 32 ≤ b := by
  obtain ⟨⟨bs, hlen⟩, h⟩ := name
  cases bs with
  | nil => cases hlen
  | cons b bs => exact ⟨b, rfl, h⟩

theorem Form.new_head (v : Version) : ∃ b ∈ (Form.version.write v).head?, ¬32 ≤ b := by
  refine ⟨UInt8.ofNat v.val.toNat, rfl, fun h => ?_⟩
  have hv := v.property
  have h32 : (32 : UInt8).toNat = 32 := rfl
  rw [UInt8.le_iff_toNat_le, version_byte, h32] at h
  omega

def Form.greeting : Format UInt8 (Asked.Content .greeting) :=
  either (32 ≤ ·) (Form.str.refine fun name => 32 ≤ name.val.head!)
    (dep Form.version fun v => seq Form.str (seq (given (3 ≤ v.val) Form.str) (given (6 ≤ v.val) Form.int8)))
    Form.old_head fun x => by
      obtain ⟨b, hb, h⟩ := Form.new_head x.1
      exact ⟨b, by rw [dep, List.head?_append, Option.mem_def.mp hb]; rfl, h⟩

def Asked.Content.form : ∀ e, Format UInt8 (Asked.Content e)
  | .invalid => void
  | .nothing => void
  | .greeting => Form.greeting
  | .blkedit => seq Form.vec (seq Form.int8 Form.int8)
  | .plyrstat => seq Form.int8 (seq Form.vec Form.head)
  | .chatmsg => seq Form.int8 Form.str

/-- The packet number of a client event. -/
def Mccevt.number : Mccevt → UInt8
  | .blkedit => 5
  | .plyrstat => 8
  | .chatmsg => 13
  | _ => 0

theorem cedecode_number (e : Mccevt) (c : Asked.Content e) : cedecode e.number.toNat = e := by
  cases e with
  | invalid => exact c.elim
  | nothing => exact c.elim
  | _ => rfl

def Asked.equiv : (Σ e, Asked.Content e) ≃ Asked where
  toFun
    | ⟨.greeting, .inl name⟩ => .greeting0 name.val name.property
    | ⟨.greeting, .inr ⟨v, name, pass, flags⟩⟩ => .greeting v.val v.property name pass flags
    | ⟨.blkedit, bpos, umod, bnew⟩ => .blkedit ⟨bpos, umod, bnew⟩
    | ⟨.plyrstat, eno, epos, head⟩ => .plyrstat eno epos head
    | ⟨.chatmsg, eno, msg⟩ => .chatmsg eno msg
  invFun
    | .greeting0 name printable => ⟨.greeting, .inl ⟨name, printable⟩⟩
    | .greeting v known name pass flags => ⟨.greeting, .inr ⟨⟨v, known⟩, name, pass, flags⟩⟩
    | .blkedit upd => ⟨.blkedit, upd.bpos, upd.umod, upd.bnew⟩
    | .plyrstat eno epos head => ⟨.plyrstat, eno, epos, head⟩
    | .chatmsg eno msg => ⟨.chatmsg, eno, msg⟩
  left_inv x := by
    obtain ⟨e, c⟩ := x
    cases e with
    | invalid => exact c.elim
    | nothing => exact c.elim
    | greeting => cases c <;> rfl
    | _ => rfl
  right_inv x := by cases x <;> rfl

def Asked.form : Format UInt8 Asked :=
  (tagged Mccevt.number (fun n => cedecode n.toNat) cedecode_number Asked.Content.form).map Asked.equiv

theorem Asked.proper : Asked.form.Proper := fun _ => List.cons_ne_nil _ _

end ClassicX
