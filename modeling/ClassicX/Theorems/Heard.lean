import ClassicX.Spec.Packets
import ClassicX.Theorems.Greetings

/-! What the server writes for an event, a client reads as the payload of the event: its strings and arrays cut to their
fields and padded. What a client writes, the server can be asked. -/

namespace ClassicX
open Formats Formats.Format
open Fields (Item)

/-! ### Payloads -/

/-- A string field. -/
def Str.field (p : Option Ptr) (len : Int) : Str := ⟨(strField p len).flat, length_strField p len⟩

/-- An array field. -/
def Arr.field (p : Option Ptr) (len : Int) : Arr := ⟨(arrField p len).flat, length_arrField p len⟩

/-- What the packet of an event says, if the payload is one of the event. -/
def Src.content (v : Int) : (e : Mcsevt) → Src → Option (Content v e)
  | .pgreeting, .gto g =>
    some (give _ g.gpv, Str.field g.gnam g.gnln, give _ (Str.field g.gmsg g.gmln), give _ g.gcfg)
  | .ping, _ => some ()
  | .lnew, _ => some ()
  | .ldata, .cho c => some (Int16.ofInt (min c.clen MCARRAYLEN), Arr.field c.cdat c.cdln, c.cpct)
  | .ldim, .vec d => some d
  | .bupdate, .bup u => some (u.bpos, u.bnew)
  | .enew, .eno e => some (e.eno, Str.field e.enam e.enln, e.epos, e.head)
  | .estate, .eup e => some (e.eno, e.epos, e.head)
  | .ediff, .eup e => if h : 0 ≠ v then some ⟨(e.eno, e.epos.diff, e.head), h⟩ else none
  | .eslide, .eup e => some (e.eno, e.epos.diff)
  | .ehead, .eup e => some (e.eno, e.head)
  | .edied, .eid b => some b
  | .cmsg, .mso m => some (m.eno, Str.field m.msg m.mlen)
  | .pbye, .mso m => some (Str.field m.msg m.mlen)
  | .cflags, .cfg u => some u
  | _, _ => none

/-- What a client of version `v` hears of an event. -/
def Sent.heard (v : Int) (e : Sent) : Option (Heard v) := (e.2.content v e.1).map (Sigma.mk e.1)

section Payloads
variable {v : Int} {e : Mcsevt} {src : Src}

theorem content_some (h : e.Casts src) (hdiff : e = .ediff → 0 ≠ v) : ∃ c, src.content v e = some c := by
  cases e <;> cases src <;> first | exact h.elim | exact ⟨_, rfl⟩ | skip
  case ediff.eup => exact ⟨_, dif_pos (hdiff rfl)⟩

theorem number_eq (h : ¬(.edied = e ∧ 0 = v)) : number v e = UInt8.ofNat (seencode e).code.toNat := if_neg h

theorem flat_layout_pgreeting (g : Mcgto) :
    Fields.flat ((layout v .pgreeting (.gto g)).drop (if Mcsevt.pgreeting = .pgreeting ∧ 0 = v then 1 else 0)) =
      (Content.form v .pgreeting).write
        (give _ g.gpv, Str.field g.gnam g.gnln, give _ (Str.field g.gmsg g.gmln), give _ g.gcfg) := by
  have h3 : 3 > v ↔ ¬3 ≤ v := not_le.symm
  have h6 : 6 > v ↔ ¬6 ≤ v := not_le.symm
  simp only [layout, h3, h6]
  by_cases hv : 0 = v
  · subst hv
    simp [Content.form, seq, given, give, Str.field, Form.str, exactly]
  · by_cases hmsg : 3 ≤ v <;> by_cases hcfg : 6 ≤ v
    all_goals first | omega | skip
    all_goals simp [hv, hmsg, hcfg, Content.form, seq, given, give, Str.field, Form.str, exactly, Form.write_int8, letter, writeu]

/-- The packet of an event is written as what it says. -/
theorem packet_content {c : Content v e} (h : src.content v e = some c) : packet v e src = (Heard.form v).write ⟨e, c⟩ := by
  have hwrite : (Heard.form v).write ⟨e, c⟩ = number v e :: (Content.form v e).write c := rfl
  rw [hwrite]
  by_cases hdied : .edied = e ∧ 0 = v
  · obtain ⟨rfl, rfl⟩ := hdied
    cases src <;> cases h
    rfl
  · rw [packet_eq fun he hv => hdied ⟨he, hv⟩, number_eq hdied, encode]
    cases e with
    | pgreeting =>
      cases src with
      | gto g =>
        cases h
        exact congrArg (0 :: ·) (flat_layout_pgreeting g)
      | _ => cases h
    | ediff =>
      cases src with
      | eup e =>
        obtain ⟨hv, hc⟩ := Option.dite_none_right_eq_some.mp h
        cases hc
        simp [layout, Content.form, refine, seq, Form.write_int8, Form.write_diff, Form.write_head]
        rfl
      | _ => cases h
    | _ =>
      cases src <;> cases h
      all_goals
        simp [layout, Content.form, Format.nothing, seq, Form.write_int8, Form.write_int16, Form.write_vec, Form.write_head,
          Form.write_diff, Str.field, Arr.field, Form.str, Form.arr, exactly, letter, writeu]
        rfl

theorem heard_some {v : Int} {e : Sent} (h : e.1.Casts e.2) (hdiff : e.1 = .ediff → 0 ≠ v) : ∃ t, e.heard v = some t := by
  obtain ⟨c, hc⟩ := content_some h hdiff
  exact ⟨⟨e.1, c⟩, by rw [Sent.heard, hc, Option.map_some]⟩

theorem packet_heard {v : Int} {e : Sent} {t : Heard v} (h : e.heard v = some t) : packet v e.1 e.2 = (Heard.form v).write t := by
  obtain ⟨c, hc, rfl⟩ := Option.map_eq_some_iff.mp h
  exact packet_content hc

/-- What is heard of an event has its kind. -/
theorem heard_kind {v : Int} {e : Sent} {t : Heard v} (h : e.heard v = some t) : t.1 = e.1 := by
  obtain ⟨c, -, rfl⟩ := Option.map_eq_some_iff.mp h
  rfl

end Payloads

/-! ### Streams -/

/-- The events tell this. -/
def Spells (v : Int) (es : List Sent) (ts : List (Heard v)) : Prop := es.map (Sent.heard v) = ts.map some

section Streams
variable {v : Int} {es fs : List Sent} {ts us : List (Heard v)}

theorem Spells.nil : Spells v [] [] := rfl

theorem Spells.append (h : Spells v es ts) (h' : Spells v fs us) : Spells v (es ++ fs) (ts ++ us) := by
  rw [Spells, List.map_append, List.map_append, h, h']

theorem Spells.wire (h : Spells v es ts) : (wire v es).flatten = ts.flatMap (Heard.form v).write := by
  induction es generalizing ts with
  | nil =>
    obtain rfl : ts = [] := List.map_eq_nil_iff.mp h.symm
    rfl
  | cons e es ih =>
    cases ts with
    | nil => cases h
    | cons t ts =>
      obtain ⟨he, hes⟩ := List.cons.inj h
      rw [ClassicX.wire, List.map_cons, List.flatten_cons, List.flatMap_cons, packet_heard he, ← ClassicX.wire, ih hes]

theorem Spells.kinds (h : Spells v es ts) : ts.map Sigma.fst = es.map Prod.fst := by
  induction es generalizing ts with
  | nil =>
    obtain rfl : ts = [] := List.map_eq_nil_iff.mp h.symm
    rfl
  | cons e es ih =>
    cases ts with
    | nil => cases h
    | cons t ts =>
      obtain ⟨he, hes⟩ := List.cons.inj h
      rw [List.map_cons, List.map_cons, heard_kind he, ih hes]

theorem spells_some (h : Sendable v es) : ∃ ts, Spells v es ts := by
  induction es with
  | nil => exact ⟨[], .nil⟩
  | cons e es ih =>
    obtain ⟨t, ht⟩ := heard_some (h e List.mem_cons_self).1 (h e List.mem_cons_self).2
    obtain ⟨ts, hts⟩ := ih fun e he => h e (List.mem_cons_of_mem _ he)
    exact ⟨t :: ts, by rw [Spells, List.map_cons, List.map_cons, ht, hts]⟩

end Streams

/-! ### Questions -/

/-- A packet of a client is written as the grammar says. -/
theorem asked_bytes (a : Asked) : Asked.form.write a = a.packet.bytes := by
  have htagged : ∀ e c, (tagged Mccevt.number (fun n => cedecode n.toNat) cedecode_number Asked.Content.form).write ⟨e, c⟩ =
      e.number :: (Asked.Content.form e).write c := fun _ _ => rfl
  rw [Asked.form, Format.map, htagged]
  cases a with
  | greeting0 name printable =>
    have hcons : name.val.head! :: name.val.tail = name.val := List.cons_head!_tail fun h => by
      have hname := name.property
      rw [h] at hname
      cases hname
    simp only [Asked.packet, CPacket.bytes, CPacket.parts, numberPart, List.flatMap_cons, List.flatMap_nil, Part.bytes,
      List.append_nil, List.singleton_append, hcons]
    rfl
  | greeting v known name pass flags =>
    obtain ⟨pass, hpass⟩ := pass
    obtain ⟨flags, hflags⟩ := flags
    have hform : (Asked.Content.form .greeting).write (.inr ⟨⟨v, known⟩, name, ⟨pass, hpass⟩, ⟨flags, hflags⟩⟩) =
        UInt8.ofNat v.toNat :: (name.val ++ (pass.elim [] Subtype.val ++ flags.elim [] writeb)) := rfl
    rw [Asked.packet, bytes_greeting, CPacket.secret]
    show (0 : UInt8) :: (Asked.Content.form .greeting).write (.inr ⟨⟨v, known⟩, name, ⟨pass, hpass⟩, ⟨flags, hflags⟩⟩) = _
    rw [hform]
    congr 3
    cases pass with
    | none =>
      have h3 : ¬3 ≤ v := fun h => Bool.false_ne_true (hpass.mpr h)
      rw [if_pos (not_le.mp h3)]
      cases flags with
      | none => rfl
      | some f =>
        have h6 := hflags.mp rfl
        omega
    | some p =>
      rw [if_neg (not_lt.mpr (hpass.mp rfl))]
      cases flags with
      | none =>
        rw [if_pos (not_le.mp fun h => Bool.false_ne_true (hflags.mpr h))]
        rfl
      | some f =>
        rw [if_neg (not_lt.mpr (hflags.mp rfl))]
        rfl
  | blkedit upd =>
    rw [Asked.packet, bytes_blkedit, List.append_assoc, ← Form.write_vec]
    rfl
  | plyrstat eno epos head =>
    rw [Asked.packet, bytes_plyrstat, ← Form.write_vec]
    rfl
  | chatmsg eno msg =>
    rw [Asked.packet, bytes_chatmsg]
    rfl

end ClassicX
