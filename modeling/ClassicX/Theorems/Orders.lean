import ClassicX.Theorems.Sayings

/-! What a command is answered with. -/

namespace ClassicX
open Formats.Format

section Orders
variable {w : World} {s : Player} {msg : Str} {c : UInt8} {ts : List (Heard s.pv)}

theorem help_says (msgs : List String) (hidle : w.z.session.Idle) :
    ∃ w', ctmsg.help w msgs = some (0, w') ∧ Says w (msgs.map fun line => chat (-1) (cchr line)) w' := by
  induction msgs generalizing w with
  | nil => exact ⟨w, rfl, .refl hidle⟩
  | cons line msgs ih =>
    obtain ⟨w₁, h₁, hp₁⟩ := sechatmsg_says (-1) (cchr line) hidle
    obtain ⟨w₂, h₂, hp₂⟩ := ih hp₁.idle
    refine ⟨w₂, ?_, hp₁.trans hp₂⟩
    simp only [ctmsg.help, h₁, Option.bind_eq_bind, Option.bind_some, ne_eq, not_true_eq_false, if_false, h₂]

theorem spells_help (v : Int) (msgs : List String) :
    Spells v (msgs.map fun line => chat (-1) (cchr line)) (msgs.map fun line => .chat (-1) (text line)) := by
  induction msgs with
  | nil => exact .nil
  | cons line msgs ih => exact .cons (heard_text (-1) line) ih

/-- The command was answered by events that tell `ts`. -/
def Obeys (w : World) (c : UInt8) (s : Player) (ts : List (Heard s.pv)) : Prop :=
  ∃ w' es, ctmsg.command w c = some (0, w') ∧ Says (w.quit c) es w' ∧ Spells s.pv es ts

/-- A command other than `/q` is answered with the events of its handler. -/
theorem obeys_other {w' : World} {x : Char} {es : List Sent} (hc : Char.ofNat c.toNat = x) (hx : x ≠ 'q')
    (hr : ctmsg.command w c = some (0, w')) (hp : Says w es w') (hspells : Spells s.pv es ts) : Obeys w c s ts := by
  have hq : w.quit c = w := if_neg fun h => hx (hc.symm.trans (ofNat_eq_iff.mpr h))
  refine ⟨w', es, hr, ?_, hspells⟩
  rw [hq]
  exact hp

/-- A command that is answered with a line of chat. -/
theorem chat_obeys {bs : List UInt8} {p : Ptr} {x : Char} (hidle : w.z.session.Idle) (hc : Char.ofNat c.toNat = x)
    (hx : x ≠ 'q') (hcommand : ctmsg.command w c = sechatmsg w (-1) p) (hp : Str.field (some p) (slen p) = Str.line bs) :
    Obeys w c s [.chat (-1) bs] := by
  obtain ⟨w', hr, hspoke⟩ := sechatmsg_says (-1) p hidle
  refine obeys_other hc hx (hcommand.trans hr) hspoke (spells_one ?_)
  rw [Heard.chat, ← hp]
  rfl

section Obey
variable (hidle : w.z.session.Idle) (hname : Names w.z.cent s.name) (hepos : w.z.cent.epos = s.epos)
  (hhead : w.z.cent.head = s.head)
include hidle

include hepos in
/-- `/p` edits the block at the position of the player. -/
theorem place_obeys (h2 : w.inbuf 2 = msg.val.getD 2 0) (h3 : w.inbuf 3 = msg.val.getD 3 0) (hc : Char.ofNat c.toNat = 'p')
    (h : s.orders msg c = some ts) : Obeys w c s ts := by
  simp only [Player.orders, hc, ← h2, ← h3] at h
  by_cases hdigits : 10 * (0xF &&& w.inbuf 2) ≠ 0 ∧ 0xF &&& w.inbuf 3 ≠ 0
  · rw [if_pos hdigits] at h
    cases h
    obtain ⟨w₁, h₁, hp⟩ := (segeneric_gives .bupdate (.bup ⟨⟨mcbcec w.z.cent.epos.x, mcbcec w.z.cent.epos.y,
      mcbcec w.z.cent.epos.z⟩, 0, (10 * (0xF &&& w.inbuf 2)).toInt8 + (0xF &&& w.inbuf 3).toInt8⟩) hidle trivial).said
    refine obeys_other hc (by decide) ?_ hp (spells_one ?_)
    · simp only [ctmsg.command, hc, if_pos hdigits, seblkch, h₁, Option.bind_eq_bind, Option.bind_some]
    · rw [hepos]
      rfl
  · rw [if_neg hdigits] at h
    cases h
    refine chat_obeys hidle hc (by decide) ?_ (line_text "Invalid usage.")
    simp only [ctmsg.command, hc, if_neg hdigits]

theorem quit_obeys (hc : Char.ofNat c.toNat = 'q') (h : s.orders msg c = some ts) : Obeys w c s ts := by
  simp only [Player.orders, hc] at h
  cases h
  obtain ⟨w₁, h₁, hp⟩ := sebye_says (cchr "You quit.") hidle
  have hq : w.quit c = w.withFlg 0 := if_pos (ofNat_eq_iff.mp hc)
  exact ⟨w₁, _, by simp only [ctmsg.command, hc, h₁], hq ▸ hp, spells_one (heard_bye "You quit.")⟩

include hepos hhead in
/-- `/r` shows the clone where the player is. -/
theorem shadow_obeys (hc : Char.ofNat c.toNat = 'r') (h : s.orders msg c = some ts) : Obeys w c s ts := by
  simp only [Player.orders, hc] at h
  cases h
  obtain ⟨w₁, h₁, hp₁⟩ := (segeneric_gives .edied (.eid 0) hidle trivial).said
  obtain ⟨w₂, h₂, hp₂⟩ := (senewactr_gives (e := { w₁.z.cent with eno := 0, enam := some (cchr "&8You"), enln := 5 })
    hp₁.idle fun _ => (by decide : (0 : Int) ≤ 5)).said
  refine obeys_other hc (by decide) ?_ (hp₁.trans hp₂) (.cons rfl (spells_one ?_))
  · simp only [ctmsg.command, hc, seactrdied, h₁, h₂, Option.bind_eq_bind, Option.bind_some]
  · rw [← hepos, ← hhead, ← hp₁.cent]
    exact heard_spawn _ (p := cchr "&8You") (n := 5) (by decide) rfl rfl

include hname in
/-- `/s` puts the player where the level starts. -/
theorem respawn_obeys (hc : Char.ofNat c.toNat = 's') (h : s.orders msg c = some ts) : Obeys w c s ts := by
  simp only [Player.orders, hc] at h
  cases hn : s.name with
  | known name =>
    rw [hn] at h hname
    cases h
    have hcall : w.z.cent.Callable := (names_callable hname).mpr (known_unlike _).2
    let e : Mcent := { initseq.spwn with eno := -1, enam := w.z.cent.enam, enln := w.z.cent.enln }
    have hlow : 0 > (-1 : Int8) := by decide
    have hent : senewactr.ent e = { e with epos := ⟨512, 512 - 20, 512⟩ } := if_pos hlow
    have hheard : Sent.heard s.pv (.enew, .eno (senewactr.ent e)) = some (.spawn (-1) name.val ⟨512, 492, 512⟩ ⟨224, 64⟩) := by
      rw [hent, show (492 : Int16) = 512 - 20 by decide]
      exact heard_named hname { e with epos := ⟨512, 512 - 20, 512⟩ } rfl rfl
    obtain ⟨w₁, h₁, hp⟩ := (senewactr_gives (e := e) hidle hcall).said
    exact obeys_other hc (by decide) (by simp only [ctmsg.command, hc]; exact h₁) hp (spells_one hheard)
  | unknown =>
    rw [hn] at h
    cases h
  | refused =>
    rw [hn] at h
    cases h

theorem teleport_obeys (hc : Char.ofNat c.toNat = 'y') (h : s.orders msg c = some ts) : Obeys w c s ts := by
  simp only [Player.orders, hc] at h
  cases h
  obtain ⟨w₁, h₁, hp⟩ := (segeneric_gives .estate (.eup { initseq.spwn.toMceup with eno := -1 }) hidle trivial).said
  exact obeys_other hc (by decide) (by simp only [ctmsg.command, hc, seactrstat, h₁]) hp (spells_one rfl)

include hname hepos hhead in
/-- A command that has an answer is answered with it. -/
theorem command_obeys (h2 : w.inbuf 2 = msg.val.getD 2 0) (h3 : w.inbuf 3 = msg.val.getD 3 0)
    (h : s.orders msg c = some ts) : Obeys w c s ts := by
  have hchat : ∀ {x : Char} {bs : List UInt8} {p : Ptr}, Char.ofNat c.toNat = x → x ≠ 'q' →
      ctmsg.command w c = sechatmsg w (-1) p → Str.field (some p) (slen p) = Str.line bs → some [.chat (-1) bs] = some ts →
      Obeys w c s ts := by
    intro x bs p hc hx hcommand hp hts
    cases hts
    exact chat_obeys hidle hc hx hcommand hp
  have horders := h
  rw [Player.orders] at h
  split at h
  case h_1 hc => exact place_obeys hidle hepos h2 h3 hc horders
  case h_2 hc => exact quit_obeys hidle hc horders
  case h_3 hc => exact shadow_obeys hidle hepos hhead hc horders
  case h_4 hc => exact respawn_obeys hidle hname hc horders
  case h_5 hc => exact hchat hc (by decide) (by simp only [ctmsg.command, hc]) (line_text _) h
  case h_6 hc => exact hchat hc (by decide) (by simp only [ctmsg.command, hc]) (line_text _) h
  case h_7 hc => exact hchat hc (by decide) (by simp only [ctmsg.command, hc]) (line_text _) h
  case h_8 hc => exact hchat hc (by decide) (by simp only [ctmsg.command, hc]) (line_text _) h
  case h_9 hc => exact hchat (p := ctmsg.control) hc (by decide) (by simp only [ctmsg.command, hc]) (line_list _) h
  case h_10 hc => exact teleport_obeys hidle hc horders
  case h_11 hp hq hr hs ht hu hv hw hx hy =>
    cases h
    obtain ⟨w', hr', hspoke⟩ := help_says (w := w) Player.help hidle
    refine obeys_other rfl hq ?_ hspoke (spells_help s.pv Player.help)
    rw [← hr', ctmsg.command]
    split <;> first | contradiction | rfl

end Obey

theorem orders_none : s.orders msg c = none ↔ c = 0x73 ∧ ∀ name, s.name ≠ .known name := by
  have hs : c = 0x73 ↔ Char.ofNat c.toNat = 's' := ofNat_eq_iff.symm
  rw [Player.orders, hs]
  generalize Char.ofNat c.toNat = x
  split
  case h_1 => simp only; split <;> simp
  case h_4 => cases s.name <;> simp
  case h_11 => simp_all
  all_goals simp

end Orders

end ClassicX
