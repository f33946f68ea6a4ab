import ClassicX.Theorems.Join
import ClassicX.Theorems.Trim

/-! What the handlers give away: packets of the grammar, one after another. Nothing else of the state changes
but what `Outcome` says of each handler. -/

namespace ClassicX

/-- What only `cloop` and `mcsread` change. -/
def World.kept (w : World) : Ptr × Stdin × Lvl × Int × Mcseri Mccevt Mcctyp :=
  (w.inbuf, w.stdin, w.z.lcur, w.z.session.curpv, w.z.session.r)

section Kept
variable {w w' : World} (h : w'.kept = w.kept)
include h

theorem kept_stdin : w'.stdin = w.stdin := congrArg (fun k => k.2.1) h

theorem kept_lcur : w'.z.lcur = w.z.lcur := congrArg (fun k => k.2.2.1) h

theorem kept_curpv : w'.z.session.curpv = w.z.session.curpv := congrArg (fun k => k.2.2.2.1) h

theorem kept_reader : w'.z.session.r = w.z.session.r := congrArg (fun k => k.2.2.2.2) h

end Kept

def World.name (w : World) : Option Ptr × Int := (w.z.cent.enam, w.z.cent.enln)

/-- A packet of a greeting, of a level, or of a spawn. -/
def Joins (p : List UInt8) : Prop := p.head? = some 0 ∨ p.head? = some 3 ∨ p.head? = some 7

/-- None of the packets takes part in a join. -/
def Quiet (ps : List (List UInt8)) : Prop := ∀ p ∈ ps, ¬Joins p

/-- The packets `ps` were given away to the same player. -/
structure Gave (w : World) (ps : List (List UInt8)) (w' : World) : Prop where
  out : w'.stdout = w.stdout ++ ps.flatten
  words : ∀ p ∈ ps, p ∈ packets w.z.session.curpv
  idle : w'.z.session.Idle
  kept : w'.kept = w.kept
  name : w'.name = w.name

/-- And the player did not join by them. -/
structure Replies (w : World) (ps : List (List UInt8)) (w' : World) : Prop extends Gave w ps w' where
  flg : w.z.flg = 0 → w'.z.flg = 0

/-- What the senders of a handler need. -/
structure Fit (w : World) : Prop where
  idle : w.z.session.Idle
  level : w.z.lcur.filelen ≤ 32767
  name : -1 ≤ w.z.cent.enln ∧ w.z.cent.enln ≤ 20

section Gave
variable {w w' : World} {ps : List (List UInt8)}

theorem Gave.curpv (h : Gave w ps w') : w'.z.session.curpv = w.z.session.curpv := kept_curpv h.kept

theorem Gave.lcur (h : Gave w ps w') : w'.z.lcur = w.z.lcur := kept_lcur h.kept

theorem Gave.fit (h : Gave w ps w') (hfit : Fit w) : Fit w' where
  idle := h.idle
  level := h.lcur ▸ hfit.level
  name := by
    have hlen : w'.z.cent.enln = w.z.cent.enln := congrArg Prod.snd h.name
    rw [hlen]
    exact hfit.name

theorem Replies.refl (h : w.z.session.Idle) : Replies w [] w :=
  ⟨⟨(List.append_nil _).symm, by simp, h, rfl, rfl⟩, id⟩

theorem Puts.replies (h : Puts w ps.flatten w') (hps : ∀ p ∈ ps, p ∈ packets w.z.session.curpv) : Replies w ps w' := by
  obtain ⟨hout, hidle, hframe⟩ := h
  rw [hframe]
  exact ⟨⟨hout, hps, hidle, rfl, rfl⟩, id⟩

/-- What else of the state there is is not looked at. -/
theorem Gave.of_same {w₁ : World} (h : Gave w₁ ps w') (hout : w₁.stdout = w.stdout) (hkept : w₁.kept = w.kept)
    (hname : w₁.name = w.name) : Gave w ps w' where
  out := hout ▸ h.out
  words := by
    have hcurpv : w₁.z.session.curpv = w.z.session.curpv := kept_curpv hkept
    exact hcurpv ▸ h.words
  idle := h.idle
  kept := h.kept.trans hkept
  name := h.name.trans hname

end Gave

/-- The goodbye packet with the text `msg`. -/
def goodbye (v : Int) (msg : Ptr) : List UInt8 := packet v .pbye (.mso ⟨some msg, slen msg, 0⟩)

/-! ### Numbers of packets -/

theorem head_packet (v : Int) (e : Mcsevt) (src : Src) :
    (packet v e src).head? = some (if .edied = e ∧ 0 = v then 9 else (Int8.ofInt (seencode e).code).toUInt8) := by
  rw [packet]
  split <;> rfl

theorem joins_packet {v : Int} {e : Mcsevt} {src : Src} :
    Joins (packet v e src) ↔ e = .pgreeting ∨ e = .ldata ∨ e = .enew := by
  rw [Joins, head_packet]
  split
  · rename_i h
    rw [← h.1]
    decide
  · cases e <;> decide

theorem quiet_packet {v : Int} {e : Mcsevt} {src : Src} (h : e ≠ .pgreeting ∧ e ≠ .ldata ∧ e ≠ .enew) :
    Quiet [packet v e src] := by
  intro p hp
  rw [List.mem_singleton.mp hp, joins_packet]
  rintro (he | he | he)
  · exact h.1 he
  · exact h.2.1 he
  · exact h.2.2 he

end ClassicX
