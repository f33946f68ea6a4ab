import ClassicX.Theorems.Codec
import ClassicX.Theorems.Driving

/-! What the server echoes, byte by byte: the edit of a block, with air where a block is removed, and a message behind the
name of the player. -/

namespace ClassicX
open Turns (storesAt)

/-! ### Edits of a block -/

/-- The edit that the bytes from `src` on are read as. -/
def bupOf (src : Ptr) : Mcbup := ⟨i3read src, readb (src.incr 6), readb (src.incr 7)⟩

theorem writeb_readb (src : Ptr) : writeb (readb src) = [src 0] := by
  rw [writeb, readb, UInt8.toUInt8_toInt8]

theorem bytes_bupOf (src : Ptr) : (CPacket.blkedit (bupOf src)).bytes = 5 :: src.take 8 := by
  rw [bytes_blkedit, bupOf, writevec_i3read, writeb_readb, writeb_readb]
  rfl

theorem clear_readb (src : Ptr) : Mcumod.clear.code = readb src ↔ src 0 = 0 := by
  have hzero : Mcumod.clear.code = (0 : UInt8).toInt8 := rfl
  rw [readb, hzero]
  constructor
  · intro h
    rw [← UInt8.toUInt8_toInt8 (src 0), ← h]
    rfl
  · intro h
    rw [h]

/-- The mode tells whether there is a block in the packet, or air. -/
theorem packet_echoed (v : Int) (src : Ptr) : packet v .bupdate (.bup (echoed (bupOf src))) =
    6 :: (src.take 6 ++ [if src 6 = 0 then 0 else src 7]) := by
  have hmode : Mcumod.clear.code = (bupOf src).umod ↔ src 6 = 0 := clear_readb (src.incr 6)
  have hpos : writevec (bupOf src).bpos = src.take 6 := writevec_i3read src
  have hpacket : ∀ u, packet v .bupdate (.bup u) = 6 :: (writevec u.bpos ++ writeb u.bnew) := by
    intro u
    rw [packet_eq (fun h => by cases h)]
    simp [encode, layout]
    rfl
  rw [hpacket, echoed]
  simp only [hmode]
  by_cases h : src 6 = 0
  · rw [if_pos h, if_pos h, hpos]
    rfl
  · rw [if_neg h, if_neg h, hpos]
    have hnew : writeb (bupOf src).bnew = [src 7] := writeb_readb (src.incr 7)
    rw [hnew]

theorem wire_echoed (v : Int) (src : Ptr) : (wire v [(.bupdate, .bup (echoed (bupOf src))), ping]).flatten =
    6 :: (src.take 6 ++ [if src 6 = 0 then 0 else src 7, 1]) := by
  have hping : wire v [ping] = [[1]] := wire_ping v .null
  rw [wire, List.map_cons, packet_echoed, List.flatten_cons, ← wire, hping]
  simp

section Edits
variable {w : World}

/-- The packet 5, p0 … p7 is answered with 6, p0 … p5, with p7, or with 0 where p6 is 0, and with a ping. -/
theorem edit_echoed (hb : AtBoundary w.z.session) (hidle : w.z.session.Idle) (henam : w.z.cent.enam ≠ none)
    (p₀ p₁ p₂ p₃ p₄ p₅ p₆ p₇ : UInt8) (rest : List UInt8)
    (hrest : w.stdin.rest = [5, p₀, p₁, p₂, p₃, p₄, p₅, p₆, p₇] ++ rest) :
    ∃ w', Goes (.evtno, w) 2 (.evtno, w') ∧
      w'.stdout = w.stdout ++ [6, p₀, p₁, p₂, p₃, p₄, p₅, if p₆ = 0 then 0 else p₇, 1] ∧ w'.stdin.rest = rest ∧
      AtBoundary w'.z.session ∧ w'.z.session.Idle := by
  let src : Ptr := fun i => [p₀, p₁, p₂, p₃, p₄, p₅, p₆, p₇].getD i.toNat 0
  have hbytes : w.stdin.rest = (CPacket.blkedit (bupOf src)).bytes ++ rest := by
    rw [hrest, bytes_bupOf]
    rfl
  obtain ⟨w₁, w₂, hdelivered⟩ := blkedit_delivered hb hbytes
  have henam₂ : w₂.z.cent.enam ≠ none := by
    rw [hdelivered.cent]
    exact henam
  obtain ⟨w', hgoes, hout, hstdin, hb', hidle'⟩ := hdelivered.answered (by decide) fun hread =>
    ctblkch_says hread (hdelivered.idle hidle) henam₂
  refine ⟨w', hgoes, hout.trans ?_, hstdin, hb', hidle'⟩
  exact congrArg (w.stdout ++ ·) (wire_echoed w.z.session.curpv src)

end Edits

/-- A removed block is air, and a negative coordinate stays as it is. -/
theorem edit_echoed_removal : ∃ w w' : World, w.stdin.rest = [5, 255, 254, 0, 64, 128, 0, 0, 200] ∧
    Goes (.evtno, w) 2 (.evtno, w') ∧ w'.stdout = [6, 255, 254, 0, 64, 128, 0, 0, 1] := by
  obtain ⟨w', hgoes, hout, -⟩ := edit_echoed (w :=
    { z := { session := fresh 7, cent := { enam := some (cchr "A"), enln := 1 }, lcur := ⟨fun _ => 0, 0, {}⟩ },
      stdin := ⟨[5, 255, 254, 0, 64, 128, 0, 0, 200], false⟩ })
    ⟨rfl, rfl, by decide⟩ ⟨rfl, rfl⟩ (by simp) 255 254 0 64 128 0 0 200 [] rfl
  exact ⟨_, w', rfl, hgoes, hout⟩

/-! ### Messages -/

/-- A string in 64 bytes: up to its first NUL, and padded with spaces. -/
def padded (bs : List UInt8) : List UInt8 :=
  let s := (bs.take 64).takeWhile (· ≠ 0)
  s ++ List.replicate (64 - s.length) 0x20

theorem take_string (p : Ptr) : p.take ((p.take 64).takeWhile (· ≠ 0)).length = (p.take 64).takeWhile (· ≠ 0) := by
  rw [← take_take p (length_string_le p)]
  exact (List.prefix_iff_eq_take.mp (List.takeWhile_prefix _)).symm

theorem strField_slen (p : Ptr) : (strField (some p) (slen p)).flat = padded (p.take 64) := by
  have hflat : (strField (some p) (slen p)).flat = Fields.text (some p) (slen p) 0x20 64 := rfl
  have hpiece : Fields.piece (some p) 0x20 ((p.take 64).takeWhile (· ≠ 0)).length = (p.take 64).takeWhile (· ≠ 0) := take_string p
  rw [hflat, slen, Fields.text_eq_piece_replicate p 0x20 (length_string_le p), hpiece, padded, take_take p le_rfl]

/-- A name that ends before its length ends the line, whatever follows. -/
theorem takeWhile_scopy (bs r : List UInt8) (n : ℕ) :
    (((bs.takeWhile (· ≠ 0)) ++ List.replicate (bs.length - (bs.takeWhile (· ≠ 0)).length) 0).take n ++ r).takeWhile (· ≠ 0) =
      (bs.take n ++ r).takeWhile (· ≠ 0) := by
  induction bs generalizing n with
  | nil => simp
  | cons b bs ih =>
    cases n with
    | zero => rfl
    | succ n =>
      by_cases hb : b = 0
      · simp [hb, List.replicate_succ]
      · have ih := ih n
        simp [hb] at ih ⊢
        exact ih

section Text
variable {enam src msg : Ptr} {n : ℕ} (hn : n ≤ 20)
include hn

/-- The line fills `msg`, and is not ended. -/
theorem echo_eq (enam src : Ptr) : ctmsg.echo enam n src 64 =
    (storesAt 0 (scopy enam) ++ storesAt n ([0x3A, 0x20] ++ src.take (62 - n)), 62 - (n : Int)) := by
  have hcolon : MCSTRLEN ≠ (n : Int) := by
    rw [MCSTRLEN]
    omega
  have hspace : MCSTRLEN ≠ (n : Int) + 1 := by
    rw [MCSTRLEN]
    omega
  have hmax : mins (MCSTRLEN - ((n : Int) + 1 + 1)) 64 = 62 - n := by
    rw [mins_eq, MCSTRLEN]
    omega
  have hfull : ¬MCSTRLEN ≠ (n : Int) + 1 + 1 + (62 - n) := by
    rw [MCSTRLEN]
    omega
  have hqty : (62 - (n : Int)).toNat = 62 - n := by omega
  simp only [ctmsg.echo, if_pos hcolon, if_pos hspace, hmax, if_neg hfull, hqty, storesAt, List.cons_append, List.nil_append,
    List.append_assoc]

theorem text_eq (enam src : Ptr) : ∃ msg, ctmsg.text enam n src 64 = some msg ∧
    msg.take 64 = (scopy enam).take n ++ ([0x3A, 0x20] ++ src.take (62 - n)) := by
  have hline : ([0x3A, 0x20] ++ src.take (62 - n) : List UInt8).length = 64 - n := by
    rw [List.length_append, length_take, List.length_cons, List.length_singleton]
    omega
  have hcopy : poke MCSTRLEN (fun _ => 0) (storesAt 0 (scopy enam)) = some (Ptr.store (fun _ => 0) 0 (scopy enam)) :=
    poke_storesAt le_rfl (by rw [length_scopy, MCSTRLEN]; rfl)
  have htext : ctmsg.text enam n src 64 =
      some (((Ptr.store (fun _ => 0) 0 (scopy enam)).store n ([0x3A, 0x20] ++ src.take (62 - n)))) := by
    have hpos : ¬0 > 62 - (n : Int) := by omega
    rw [ctmsg.text, echo_eq hn]
    simp only [if_neg hpos]
    rw [poke_append, hcopy, Option.bind_some, poke_storesAt (by omega) (by rw [hline, MCSTRLEN]; omega)]
  refine ⟨_, htext, ?_⟩
  have htake := take_store (Ptr.store (fun _ => 0) 0 (scopy enam)) n ([0x3A, 0x20] ++ src.take (62 - n))
  have hsize : n + (64 - n) = 64 := by omega
  rw [hline, hsize] at htake
  rw [htake, take_holds (holds_store _ _) (by rw [length_scopy]; omega)]

/-- What is echoed is the name, the colon and the message, in 64 bytes. -/
theorem padded_line (enam src : Ptr) : padded ((scopy enam).take n ++ ([0x3A, 0x20] ++ src.take (62 - n))) =
    padded (enam.take n ++ [0x3A, 0x20] ++ src.take 64) := by
  have hleft : ((scopy enam).take n ++ ([0x3A, 0x20] ++ src.take (62 - n))).take 64 =
      (scopy enam).take n ++ ([0x3A, 0x20] ++ src.take (62 - n)) := by
    refine List.take_of_length_le ?_
    simp only [List.length_append, List.length_take, length_scopy, length_take, List.length_cons, List.length_nil]
    omega
  have hright : (enam.take n ++ [0x3A, 0x20] ++ src.take 64).take 64 =
      enam.take n ++ ([0x3A, 0x20] ++ src.take (62 - n)) := by
    have hhead : (enam.take n ++ [0x3A, 0x20]).length = n + 2 := by simp
    have hsize : 64 - (n + 2) = 62 - n := by omega
    rw [List.take_append, List.take_of_length_le (by omega), hhead, hsize, take_take src (by omega), List.append_assoc]
  have hcut := takeWhile_scopy (enam.take 64) ([0x3A, 0x20] ++ src.take (62 - n)) n
  rw [length_take, take_take enam (by omega)] at hcut
  rw [padded, padded, hleft, hright, ← hcut]
  rfl

end Text

theorem wire_chat (v : Int) (msg : Ptr) : (wire v [chat 0 msg, ping]).flatten = 13 :: 0 :: (padded (msg.take 64) ++ [1]) := by
  have hchat : packet v .cmsg (.mso ⟨some msg, slen msg, 0⟩) = 13 :: 0 :: padded (msg.take 64) := by
    rw [packet_eq (fun h => by cases h), ← strField_slen]
    simp [encode, layout]
    rfl
  have hping : wire v [ping] = [[1]] := wire_ping v .null
  rw [chat, wire, List.map_cons, hchat, List.flatten_cons, ← wire, hping]
  rfl

section Messages
variable {w : World} {p : Ptr} {n : ℕ}

/-- A message that is no command is echoed behind the name of the player, and with a ping. -/
theorem message_echoed (hb : AtBoundary w.z.session) (hidle : w.z.session.Idle) (henam : w.z.cent.enam = some p)
    (henln : w.z.cent.enln = n) (hn : 1 ≤ n ∧ n ≤ 20) (eno : UInt8) (msg : Str) (rest : List UInt8)
    (hslash : msg.val.head? ≠ some 0x2F) (hrest : w.stdin.rest = 13 :: eno :: (msg.val ++ rest)) :
    (∃ w', Goes (.evtno, w) 3 (.evtno, w') ∧
      w'.stdout = w.stdout ++ 13 :: 0 :: (padded (p.take n ++ [0x3A, 0x20] ++ msg.val) ++ [1]) ∧ w'.stdin.rest = rest ∧
      AtBoundary w'.z.session ∧ w'.z.session.Idle) ∧
    ∀ src, ∀ st ∈ (ctmsg.echo p n src 64).1, 0 ≤ st.1 ∧ st.1 ≤ 63 := by
  have hlen : (0 : Int) ≤ n ∧ (n : Int) ≤ 20 := by omega
  refine ⟨?_, fun src => (echo_stores p src hlen (by omega)).1⟩
  have hbytes : w.stdin.rest = (CPacket.chatmsg eno.toInt8 msg).bytes ++ rest := by
    rw [hrest, bytes_chatmsg, writeb, UInt8.toUInt8_toInt8]
    rfl
  obtain ⟨w₁, w₂, hdelivered, hholds⟩ := chatmsg_delivered hb hbytes
  have hcent := hdelivered.cent
  have hslash₂ : w₂.inbuf 0 ≠ 0x2F := by
    intro h
    have hpos : 0 < msg.val.length := by
      rw [msg.property]
      decide
    have hfirst := hholds 0 hpos
    refine hslash ?_
    rw [List.head?_eq_getElem?, List.getElem?_eq_getElem hpos, ← hfirst]
    exact congrArg some h
  obtain ⟨line, hline, htake⟩ := text_eq hn.2 p w₂.inbuf
  obtain ⟨w', hgoes, hout, hstdin, hb', hidle'⟩ := hdelivered.answered (by decide) fun hread =>
    ctmsg_says hread (hdelivered.idle hidle) (hcent ▸ henam) hslash₂ (by rw [hcent, henln]; exact hline)
  refine ⟨w', hgoes, ?_, hstdin, hb', hidle'⟩
  rw [hout, wire_chat, htake, padded_line hn.2, take_str hholds]

end Messages

/-- A message that does not fit behind the name is cut. -/
theorem message_echoed_cut : ∃ w w' : World, w.stdin.rest = 13 :: 255 :: List.replicate 64 0x43 ∧
    Goes (.evtno, w) 3 (.evtno, w') ∧ w'.stdout = [13, 0, 0x41, 0x42, 0x3A, 0x20] ++ List.replicate 60 0x43 ++ [1] := by
  obtain ⟨⟨w', hgoes, hout, -⟩, -⟩ := message_echoed (p := cchr "AB") (n := 2) (w :=
    { z := { session := fresh 7, cent := { enam := some (cchr "AB"), enln := 2 }, lcur := ⟨fun _ => 0, 0, {}⟩ },
      stdin := ⟨13 :: 255 :: List.replicate 64 0x43, false⟩ })
    ⟨rfl, rfl, by decide⟩ ⟨rfl, rfl⟩ rfl rfl (by decide) 255 ⟨List.replicate 64 0x43, rfl⟩ [] (by decide) rfl
  refine ⟨_, w', rfl, hgoes, hout.trans ?_⟩
  decide

end ClassicX
