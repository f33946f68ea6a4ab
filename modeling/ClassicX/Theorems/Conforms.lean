import ClassicX.Theorems.Differences
import ClassicX.Theorems.Orders

/-! The program does what the server is for: between two packets it remembers what the server remembers, it answers a packet
with the bytes of the answer, and where there is no answer it comes to a step that is not defined. -/

namespace ClassicX
open Formats.Format

/-- The program remembers `s`, and has the level `l`. -/
structure Remembers (l : Lvl) (s : Player) (w : World) : Prop where
  idle : w.z.session.Idle
  lcur : w.z.lcur = l
  pv : w.z.session.curpv = s.pv
  plays : w.z.flg ≠ 0 ↔ s.plays = true
  name : Names w.z.cent s.name
  epos : w.z.cent.epos = s.epos
  head : w.z.cent.head = s.head
  ctr : w.ctr = s.ctr

/-- It does between two packets. -/
structure Conforms (l : Lvl) (s : Player) (w : World) : Prop extends Remembers l s w where
  boundary : AtBoundary w.z.session

/-- The packet in front of `rest` was answered with `x`. -/
structure Replied (l : Lvl) (w : World) (rest : List UInt8) (x : Answer) (w' : World) : Prop where
  out : w'.stdout = w.stdout ++ x.bytes
  rest : w'.stdin.rest = rest
  eof : w'.stdin.eof = w.stdin.eof
  conforms : Conforms l x.next w'

section Relation
variable {l : Lvl} {s : Player} {w w₁ w₂ w' : World} {es : List Sent} {x : Answer} {rest : List UInt8}

theorem csetup_conforms (l : Lvl) (stdin : List UInt8) : Conforms l .nobody (csetup l stdin) where
  boundary := ⟨rfl, rfl, known_zero⟩
  idle := ⟨rfl, rfl⟩
  lcur := rfl
  pv := rfl
  plays := iff_of_false (fun h => h rfl) Bool.false_ne_true
  name := rfl
  epos := rfl
  head := rfl
  ctr := rfl

/-- What is given away changes nothing of what is remembered. -/
theorem Says.remembers (h : Says w es w') (hs : Remembers l s w) : Remembers l s w' := by
  have hidle := h.idle
  have hframe := h.frame
  generalize w'.outputs = out at hframe
  generalize w'.z.session.w = writer at hframe
  subst hframe
  exact { hs with idle := hidle }

theorem Says.reader (h : Says w es w') : w'.z.session.r = w.z.session.r ∧ w'.stdin = w.stdin := by
  rw [h.frame]
  exact ⟨rfl, rfl⟩

theorem Says.conforms (h : Says w es w') (hs : Conforms l s w) : Conforms l s w' where
  toRemembers := h.remembers hs.toRemembers
  boundary := by
    obtain ⟨hevt, htype, hpv⟩ := hs.boundary
    exact ⟨h.reader.1.symm ▸ hevt, h.reader.1.symm ▸ htype, h.curpv.symm ▸ hpv⟩

/-- The answer of a handler that has read the packet, and has changed what is remembered before it says the events. -/
theorem Says.replied (h : Says w₂ es w') (hspells : Spells x.next.pv es x.heard) (hconforms : Conforms l x.next w₂)
    (hout : w₂.stdout = w.stdout) (hrest : w₂.stdin = ⟨rest, w.stdin.eof⟩) : Replied l w rest x w' where
  out := by
    rw [h.out, hout, hconforms.pv, hspells.wire]
    rfl
  rest := by rw [h.reader.2, hrest]
  eof := by rw [h.reader.2, hrest]
  conforms := h.conforms hconforms

theorem Fetched.stdin {sess : Mcx} (h : Fetched w rest sess w') : w'.stdin = ⟨rest, w.stdin.eof⟩ := by rw [h]

/-- Reading changes nothing of what is remembered but the version. -/
theorem Fetched.remembers {sess : Mcx} (h : Fetched w rest sess w') (hw : sess.w = w.z.session.w)
    (hpv : sess.curpv = w.z.session.curpv) (hs : Remembers l s w) : Remembers l s w' := by
  rw [Fetched] at h
  generalize w'.inbuf = buf at h
  subst h
  exact { hs with
    idle := ⟨hw ▸ hs.idle.1, hw ▸ hs.idle.2⟩
    pv := hpv.trans hs.pv }

theorem Fetched.conforms {sess : Mcx} (h : Fetched w rest sess w') (hb : AtBoundary sess) (hw : sess.w = w.z.session.w)
    (hpv : sess.curpv = w.z.session.curpv) (hs : Remembers l s w) : Conforms l s w' where
  toRemembers := h.remembers hw hpv hs
  boundary := h.session.symm ▸ hb

theorem names_length {e : Mcent} {n : Naming} (h : Names e n) (hn : n ≠ .unknown) : (∀ name, n ≠ .known name) ↔ e.enln = -1 := by
  cases n with
  | unknown => exact absurd rfl hn
  | refused => exact iff_of_true (fun name => (known_unlike name).2.symm) h.2
  | known name =>
    obtain ⟨p, -, -, henln⟩ := h
    refine iff_of_false (fun hno => hno name rfl) fun hneg => ?_
    omega

theorem quit_conforms (c : UInt8) (h : Conforms l s w) : Conforms l (s.quits c) (w.quit c) := by
  by_cases hc : c = 0x71
  · rw [World.quit, if_pos hc]
    exact { h with plays := by simp [Player.quits, World.withFlg, hc] }
  · rw [World.quit, if_neg hc]
    exact { h with plays := by simpa [Player.quits, hc] using h.plays }

theorem holds_getD {p : Ptr} {str : Str} (h : Holds p str.val) {i : ℕ} (hi : i < 64) : p i = str.val.getD i 0 := by
  have hlen : i < str.val.length := str.property.symm ▸ hi
  rw [h i hlen, List.getD_eq_getElem?_getD, List.getElem?_eq_getElem hlen, Option.getD_some]

/-- What is echoed is cut and padded as a line. -/
theorem echoed_line {name : { bs : List UInt8 // 1 ≤ bs.length ∧ bs.length ≤ 20 }} {p line : Ptr} {msg : Str}
    (hp : p.take name.val.length = name.val) (hholds : Holds w.inbuf msg.val)
    (hline : line.take 64 = (scopy p).take name.val.length ++ ([0x3A, 0x20] ++ w.inbuf.take (62 - name.val.length))) :
    Str.line (line.take 64) = Str.line (name.val ++ [0x3A, 0x20] ++ msg.val) := by
  have hpadded := padded_line name.property.2 p w.inbuf
  rw [← hline, hp, take_str hholds] at hpadded
  have hof : ∀ bs : List UInt8, (Str.line bs).val = padded bs := by
    intro bs
    have hlen : ((bs.take 64).takeWhile (· ≠ 0)).length ≤ 64 :=
      (List.takeWhile_prefix _).length_le.trans (by rw [List.length_take]; omega)
    exact val_of _ hlen
  exact Subtype.ext ((hof _).trans (hpadded.trans (hof _).symm))

end Relation

/-! ### Packets -/

/-- A packet is answered when its last field is read, and nothing is given away before. -/
def Answered (l : Lvl) (w : World) (p : CPacket) (rest : List UInt8) (x : Answer) : Prop :=
  ∃ w', Goes (.evtno, w) p.parts.length (.evtno, w') ∧ Replied l w rest x w'

/-- What is done when the last field of a packet is read is not defined. -/
def Unanswered (w : World) (p : CPacket) : Prop :=
  ∃ ct w₁, Goes (.evtno, w) (p.parts.length - 1) (ct, w₁) ∧ w₁.stdout = w.stdout ∧ ct ≠ .invalid ∧ cloop w₁ ct = none

/-- A state that is taken for another one has the same position. -/
theorem same_epos {dst src : Mceup} (h : mcescmp dst src = .eq) : dst.epos = src.epos := by
  rcases mcescmp_eq dst src with ⟨-, hd⟩ | ⟨-, ⟨-, -, hd⟩ | ⟨-, -, hd⟩ | ⟨-, -, hd⟩ | ⟨hepos, -, -⟩⟩
  · cases hd.symm.trans h
  · cases hd.symm.trans h
  · cases hd.symm.trans h
  · cases hd.symm.trans h
  · exact hepos

section Packets
variable {l : Lvl} {s : Player} {w w₁ w₂ : World} {rest : List UInt8} {p : CPacket}

section Delivered
variable {k : ℕ} {ct : Mcctyp} {f : World → Int → Option (Mcctyp × World)} {qty : Int} {dst : Bool} {v : Option Val}
  (h : Delivered .evtno w k rest ct f qty dst v w.z.session.curpv w₁ w₂) (hs : Conforms l s w)
include h

theorem Delivered.stdin : w₂.stdin = ⟨rest, w.stdin.eof⟩ := by
  obtain ⟨sess, hfetched, -⟩ := h.fetched
  exact hfetched.stdin

theorem Delivered.stdout : w₂.stdout = w.stdout := by
  obtain ⟨sess, hfetched, -⟩ := h.fetched
  exact hfetched.stdout

include hs in
theorem Delivered.conforms : Conforms l s w₂ := by
  obtain ⟨sess, hfetched, hb, hw, hpv⟩ := h.fetched
  exact hfetched.conforms hb hw hpv hs.toRemembers

theorem Delivered.replied (hparts : p.parts.length = k + 1) (hct : ct ≠ .invalid) {x : Answer}
    (hanswer : ∀ {w₀}, w₀.mcsread qty dst = some (.evtno, w₂, v) →
      ∃ w' w₃ es, f w₀ qty = some (.evtno, w') ∧ Says w₃ es w' ∧ Spells x.next.pv es x.heard ∧ Conforms l x.next w₃ ∧
        w₃.stdout = w₂.stdout ∧ w₃.stdin = w₂.stdin) :
    Answered l w p rest x := by
  obtain ⟨w₀, hcloop, hread⟩ := h.call
  obtain ⟨w', w₃, es, hr, hsays, hspells, hconforms, hout, hstdin⟩ := hanswer hread
  exact ⟨w', hparts ▸ h.goes.next hct (hcloop.trans hr),
    hsays.replied hspells hconforms (hout.trans h.stdout) (hstdin.trans h.stdin)⟩

theorem Delivered.unanswered (hparts : p.parts.length = k + 1) (hct : ct ≠ .invalid)
    (hnone : ∀ {w₀}, w₀.mcsread qty dst = some (.evtno, w₂, v) → f w₀ qty = none) : Unanswered w p := by
  obtain ⟨w₀, hcloop, hread⟩ := h.call
  rw [Unanswered, hparts]
  exact ⟨ct, w₁, h.goes, h.silent, hct, hcloop.trans (hnone hread)⟩

end Delivered

variable (hs : Conforms l s w)
include hs

theorem Conforms.unnamed : w.z.cent.enam = none ↔ s.name = .unknown := names_unknown hs.name

/-- What the program does with the packet `a` is what the server answers. -/
def Conforms.Does (_ : Conforms l s w) (rest : List UInt8) (a : Asked) : Prop :=
  match s.answer l a with
  | some x => Answered l w a.packet rest x
  | none => Unanswered w a.packet

theorem edit_does (upd : Mcbup) (hrest : w.stdin.rest = (CPacket.blkedit upd).bytes ++ rest) : hs.Does rest (.blkedit upd) := by
  obtain ⟨w₁, w₂, hdelivered⟩ := blkedit_delivered hs.boundary hrest
  have hs₂ := hdelivered.conforms hs
  rw [Conforms.Does, Player.answer]
  by_cases hname : s.name = .unknown
  · rw [if_pos hname]
    exact hdelivered.unanswered rfl (by decide) fun hread => ctblkch_none hread (hs₂.unnamed.mpr hname)
  · rw [if_neg hname]
    refine hdelivered.replied rfl (by decide) fun hread => ?_
    obtain ⟨w', hr, hsays⟩ := ctblkch_says hread hs₂.idle fun h => hname (hs₂.unnamed.mp h)
    refine ⟨w', w₂, _, hr, hsays, .cons ?_ (spells_one heard_ping), hs₂, rfl, rfl⟩
    have hmode : Mcumod.clear.code = upd.umod ↔ upd.umod = 0 := eq_comm
    rw [ctblkch.upd, echoed]
    simp only [hmode]
    split <;> rfl

/-- A command is answered, and then a ping. -/
theorem ctmsg_orders {w₀ : World} {msg : Str} {qty : Int} {v : Option Val} {t : Mcctyp}
    (hread : w₀.mcsread qty false = some (t, w, v)) (hholds : Holds w.inbuf msg.val) (hname : s.name ≠ .unknown)
    (hslash : msg.val.getD 0 0 = 0x2F) {ts : List (Heard s.pv)} (horders : s.orders msg (msg.val.getD 1 0) = some ts) :
    ∃ w' es, ctmsg w₀ qty = some (t, w') ∧ Says (w.quit (msg.val.getD 1 0)) es w' ∧ Spells s.pv es (ts ++ [.ping]) := by
  obtain ⟨p, hp⟩ := Option.ne_none_iff_exists'.mp fun h => hname (hs.unnamed.mp h)
  have h0 := holds_getD hholds (i := 0) (by decide)
  have h1 := holds_getD hholds (i := 1) (by decide)
  rw [hslash] at h0
  rw [← h1] at horders ⊢
  obtain ⟨w₁, es, hcommand, hsays, hspells⟩ := command_obeys hs.idle hs.name hs.epos hs.head
    (holds_getD hholds (i := 2) (by decide)) (holds_getD hholds (i := 3) (by decide)) horders
  obtain ⟨w₂, hping, hsays₂⟩ := seping_says hsays.idle
  refine ⟨w₂, es ++ [ping], ?_, hsays.trans hsays₂, hspells.append (spells_one heard_ping)⟩
  have hslash' : 0x2F = w.inbuf 0 := h0.symm
  have hfirst : w.inbuf 1 = w.inbuf (1 : ℕ) := rfl
  simp only [ctmsg, hread, hp, warn_stdc, warn, Option.map_some, if_pos hslash', hfirst, hcommand, hping, Option.bind_eq_bind,
    Option.bind_some, Mcctyp.unless, ne_eq, not_true_eq_false, if_false]

theorem message_does (eno : Int8) (msg : Str) (hrest : w.stdin.rest = (CPacket.chatmsg eno msg).bytes ++ rest) :
    hs.Does rest (.chatmsg eno msg) := by
  obtain ⟨w₁, w₂, hdelivered, hholds⟩ := chatmsg_delivered hs.boundary hrest
  have hs₂ := hdelivered.conforms hs
  have h0 := holds_getD hholds (i := 0) (by decide)
  have h1 := holds_getD hholds (i := 1) (by decide)
  have hanswer : s.answer l (.chatmsg eno msg) = s.message msg := rfl
  rw [Conforms.Does, hanswer, Player.message]
  by_cases hname : s.name = .unknown
  · rw [if_pos hname]
    refine hdelivered.unanswered rfl (by decide) fun hread => ?_
    have henam := hs₂.unnamed.mpr hname
    simp only [ctmsg, hread, henam, warn_stdc, warn, Option.map_none, Option.bind_eq_bind, Option.bind_some, Option.bind_none]
  · have hlen := names_length hs₂.name hname
    rw [if_neg hname]
    by_cases hslash : msg.val.getD 0 0 = 0x2F
    · rw [if_pos hslash]
      cases horders : s.orders msg (msg.val.getD 1 0) with
      | some ts =>
        refine hdelivered.replied rfl (by decide) fun hread => ?_
        obtain ⟨w', es, hr, hsays, hspells⟩ := ctmsg_orders hs₂ hread hholds hname hslash horders
        refine ⟨w', _, es, hr, hsays, hspells, quit_conforms _ hs₂, ?_, ?_⟩ <;> rw [World.quit] <;> split <;> rfl
      | none =>
        obtain ⟨hc, hno⟩ := orders_none.mp horders
        refine hdelivered.unanswered rfl (by decide) fun hread => ctmsg_none hread hs₂.idle ?_ fun hsay => ?_
        · rw [hlen.mp hno]
        · have hneg := hsay.2.1 (h0.trans hslash) (h1.trans hc)
          rw [hlen.mp hno] at hneg
          exact absurd hneg (by decide)
    · have hrefused : ∀ name, Naming.refused ≠ .known name := fun name => (known_unlike name).2.symm
      rw [if_neg hslash]
      cases hn : s.name with
      | unknown => exact absurd hn hname
      | refused =>
        rw [hn] at hlen
        refine hdelivered.unanswered rfl (by decide) fun hread => ctmsg_none hread hs₂.idle ?_ fun hsay => ?_
        · rw [hlen.mp hrefused]
        · have hneg := hsay.2.2 fun h => hslash (h0.symm.trans h)
          rw [hlen.mp hrefused] at hneg
          exact absurd hneg (by decide)
      | known name =>
        have hnames := hs₂.name
        rw [hn] at hnames
        obtain ⟨p, hp, htake, henln⟩ := hnames
        refine hdelivered.replied rfl (by decide) fun hread => ?_
        obtain ⟨line, hline, hbytes⟩ := text_eq name.property.2 p w₂.inbuf
        obtain ⟨w', hr, hsays⟩ := ctmsg_says hread hs₂.idle hp (fun h => hslash (h0.symm.trans h)) (henln ▸ hline)
        refine ⟨w', w₂, _, hr, hsays, .cons ?_ (spells_one heard_ping), hs₂, rfl, rfl⟩
        rw [heard_chat, echoed_line htake hholds hbytes]
        rfl

/-! ### States -/

theorem moved_conforms (epos : Mcvec) (head : Mchead) :
    Conforms l (s.moved epos head) (w.moved w.z.cent.toMceup { epos := epos, head := head }) := by
  have hsame : mcescmp w.z.cent.toMceup { epos := epos, head := head } =
      mcescmp { epos := s.epos, head := s.head } { epos := epos, head := head } := by
    rw [← hs.epos, ← hs.head]
    rfl
  rw [World.moved, Player.moved, hsame]
  by_cases heq : mcescmp { epos := s.epos, head := s.head } { epos := epos, head := head } = .eq
  · rw [if_pos heq.symm]
    simp only [if_pos heq]
    exact { hs with epos := hs.epos.trans (same_epos heq), name := hs.name }
  · rw [if_neg (Ne.symm heq)]
    simp only [if_neg heq]
    exact { hs with epos := rfl, head := rfl, name := hs.name }

theorem counts_conforms (n : ℕ) (hn : s.plays = true → n ≤ 1024) : Conforms l (s.counts n hn) (w.withCtr n) :=
  { hs with ctr := rfl, plays := hs.plays, name := hs.name }

theorem joined_conforms (hplays : s.plays = true) : Conforms l (s.counts 1 (by simp)) (w.joined.withCtr 1) :=
  { hs with ctr := rfl, plays := iff_of_true (by show (1 : UInt8) ≠ 0; decide) hplays, name := hs.name }

theorem Conforms.callable : w.z.cent.Callable ↔ s.name ≠ .refused := names_callable hs.name

theorem again_spells {ts : List (Heard s.pv)} (h : s.again = some ts) : (w.ctr = 512 → w.z.cent.Callable) ∧
    Spells s.pv (if w.ctr = 512 then respawns s.pv w.z.cent else []) ts := by
  have hctr := hs.ctr
  rw [Player.again] at h
  by_cases h512 : w.ctr = 512
  · rw [if_pos (by omega)] at h
    rw [if_pos h512]
    refine ⟨fun _ => hs.callable.mpr fun hname => ?_, spells_respawns s hs.name hs.epos hs.head h⟩
    rw [respawns_none.mpr hname] at h
    cases h
  · rw [if_neg (by omega)] at h
    cases h
    rw [if_neg h512]
    exact ⟨fun h => absurd h h512, .nil⟩

/-- The state of a player who takes part, with the events that answer it. -/
theorem state_plays (epos : Mcvec) (head : Mchead) (hplays : s.plays = true) {x : Answer} (h : s.state l epos head = some x)
    {e : Mceup} (he : e = { epos := epos, head := head }) :
    w.Playable ∧ Spells x.next.pv (plays w w.z.cent.toMceup e) x.heard ∧
      Conforms l x.next ((w.played w.z.cent.toMceup e).withCtr ((w.played w.z.cent.toMceup e).ctr + 1)) := by
  subst he
  have hwaits : ¬s.plays = false := by simp [hplays]
  have hmoved := moved_conforms hs epos head
  have hsaid := (spells_moves s w.z.cent.toMceup hs.epos hs.head epos head).append (spells_one heard_ping)
  have hctr := hs.ctr
  have hcounted := s.counted hplays
  obtain ⟨hsame, -, -, -, hname⟩ := moved_frame w w.z.cent.toMceup { epos := epos, head := head }
  obtain ⟨henam, henln⟩ := Prod.mk.inj hname
  rw [Player.state, dif_neg hwaits] at h
  by_cases hlow : s.ctr < 1024
  · have hno : ¬w.ctr ≥ 1024 := by omega
    rw [dif_pos hlow] at h
    obtain ⟨again, hagain, rfl⟩ := Option.map_eq_some_iff.mp h
    obtain ⟨hcall, hspells⟩ := again_spells hmoved hagain
    rw [hsame, Mcent.Callable, henam, henln] at hcall
    rw [hsame] at hspells
    have hplayable : w.Playable := ⟨hcall, fun h => absurd h hno⟩
    have hsaid : Spells s.pv (plays w w.z.cent.toMceup { epos := epos, head := head }) (s.moves epos head ++ [.ping] ++ again) := by
      rw [plays, hs.pv, if_neg hno, List.append_nil]
      exact hsaid.append hspells
    have hplayed : w.played w.z.cent.toMceup { epos := epos, head := head } =
        w.moved w.z.cent.toMceup { epos := epos, head := head } := if_neg hno
    rw [hplayed, hsame, hctr]
    exact ⟨hplayable, hsaid, counts_conforms hmoved _ _⟩
  · have hyes : w.ctr ≥ 1024 := by omega
    have h512 : ¬w.ctr = 512 := by omega
    have henam : w.z.cent.enam ≠ none := fun h => s.named hplays (hs.unnamed.mp h)
    have hplayable : w.Playable := ⟨fun h => absurd h h512, fun _ => henam⟩
    have hsaid : Spells s.pv (plays w w.z.cent.toMceup { epos := epos, head := head })
        (s.moves epos head ++ [.ping] ++ Heard.joins s.pv l) := by
      rw [plays, hs.pv, hs.lcur, if_neg h512, List.append_nil, if_pos hyes]
      exact hsaid.append (spells_joins l)
    have hplayed : w.played w.z.cent.toMceup { epos := epos, head := head } =
        (w.moved w.z.cent.toMceup { epos := epos, head := head }).joined := if_pos hyes
    rw [dif_neg hlow] at h
    obtain rfl := Option.some.inj h
    rw [hplayed]
    exact ⟨hplayable, hsaid, joined_conforms hmoved hplays⟩

theorem state_does (eno : Int8) (epos : Mcvec) (head : Mchead) (hlevel : l.filelen ≤ 32767)
    (hrest : w.stdin.rest = (CPacket.plyrstat eno epos head).bytes ++ rest) : hs.Does rest (.plyrstat eno epos head) := by
  obtain ⟨w₁, w₂, hdelivered⟩ := plyrstat_delivered hs.boundary hrest
  have hs₂ := hdelivered.conforms hs
  have hanswer : s.answer l (.plyrstat eno epos head) = s.state l epos head := rfl
  rw [Conforms.Does, hanswer]
  by_cases hplays : s.plays = true
  · have hflg := hs₂.plays.mpr hplays
    cases hstate : s.state l epos head with
    | some x =>
      refine hdelivered.replied rfl (by decide) fun hread => ?_
      obtain ⟨hplay, hspells, hconforms⟩ := state_plays hs₂ epos head hplays hstate rfl
      obtain ⟨w', hr, hsays⟩ := ctactrstat_says hread hs₂.idle (hs₂.lcur.symm ▸ hlevel) hflg hplay
      exact ⟨w', _, _, hr, hsays, hspells, hconforms, (played_same _ _ _).1, kept_stdin (played_same _ _ _).2.1⟩
    | none =>
      refine hdelivered.unanswered rfl (by decide) fun hread => ?_
      have hwaits : ¬s.plays = false := by simp [hplays]
      have hctr := hs₂.ctr
      rw [Player.state, dif_neg hwaits] at hstate
      split at hstate
      · obtain ⟨h512, hname⟩ := (again_none (s := s.moved epos head)).mp (Option.map_eq_none_iff.mp hstate)
        have hrefused : Names w₂.z.cent .refused := hname ▸ hs₂.name
        rw [ctactrstat_plays hread hflg, joined_none _ _ hs₂.idle hrefused.2.ge fun hplay => ?_, Option.map_none]
        have h512 : s.ctr = 512 := h512
        have hpos := hplay.1 (by omega) (Option.isSome_iff_ne_none.mpr hrefused.1)
        rw [hrefused.2] at hpos
        exact absurd hpos (by decide)
      · cases hstate
  · have hwaits : s.plays = false := by simpa using hplays
    rw [Player.state, dif_pos hwaits]
    refine hdelivered.replied rfl (by decide) fun hread => ?_
    have hflg : w₂.z.flg = 0 := by simpa [hwaits] using hs₂.plays
    obtain ⟨w', hr, hsays⟩ := ctactrstat_waits hread hs₂.idle hflg
    refine ⟨w', _, _, hr, hsays, spells_one heard_ping, ?_, rfl, rfl⟩
    rw [hs₂.ctr]
    exact counts_conforms hs₂ _ _

end Packets

/-! ### Greetings -/

section Greetings
variable {l : Lvl} {s : Player} {w w₁ w₂ : World} {rest : List UInt8} {v : Int} {name : Str} {p : CPacket}

theorem save_names (h : Holds w.inbuf name.val) (hshort : trimmed name.val ≤ 20) :
    Names (ctname.save w).2.z.cent (.of name) := by
  have hlen := name.property
  have hlast : strim.last w.inbuf 64 + 1 = max 1 (trimmed name.val) := by rw [last_eq, take_str h]
  have hmin : min 20 (max 1 (trimmed name.val)) = max 1 (trimmed name.val) := by omega
  have hno : ¬((max 1 (trimmed name.val) : ℕ) : Int) > 20 := by omega
  have hsize : (name.val.take (max 1 (trimmed name.val))).length = max 1 (trimmed name.val) := by
    rw [List.length_take]
    omega
  have hstrim : strim w.nbuf w.inbuf 20 = (((max 1 (trimmed name.val) : ℕ) : Int),
      w.nbuf.store 0 (w.inbuf.take (max 1 (trimmed name.val)) ++ [0])) := by
    simp only [strim, hlast, if_neg hno]
  refine ⟨w.nbuf.store 0 (w.inbuf.take (max 1 (trimmed name.val)) ++ [0]), ?_, ?_, ?_⟩
  · simp only [ctname.save, strim_stdc, hstrim]
    rfl
  · simp only [hmin, hsize]
    rw [take_holds (holds_store _ _) (by simp [length_take]), ← take_holds h (by omega), List.take_left' (length_take _ _)]
  · simp only [ctname.save, strim_stdc, hstrim, hmin, hsize]
    rfl

theorem save_refused (h : Long w.inbuf) : Names (ctname.save w).2.z.cent .refused :=
  ⟨Option.some_ne_none _, (save_length w).1 h⟩

section Name
variable {r : Mcseri Mccevt Mcctyp} (hs : Remembers l s w) (version : Known v)
  (hfetched : Fetched w rest { w.z.session with curpv := v, r := r } w₂) (hholds : Holds w₂.inbuf name.val)
include hs hfetched hholds

theorem short_remembers (hshort : trimmed name.val ≤ 20) :
    Remembers l (s.introduces v version (.of name) (of_unlike name).1) (ctname.save w₂).2 := by
  have hnames := save_names hholds hshort
  have hplays : (s.plays && Naming.of name ≠ .refused) = s.plays := by simp [(of_unlike name).2]
  rw [Fetched] at hfetched
  generalize w₂.inbuf = buf at hfetched
  subst hfetched
  exact { hs with pv := rfl, name := hnames, plays := hs.plays.trans (hplays ▸ Iff.rfl) }

theorem long_remembers (hlong : Long w₂.inbuf) :
    Remembers l (s.introduces v version .refused refused_ne) ((ctname.save w₂).2.withFlg 0) := by
  have hnames := save_refused hlong
  have hplays : (s.introduces v version .refused refused_ne).plays ≠ true := by simp [Player.introduces]
  rw [Fetched] at hfetched
  generalize w₂.inbuf = buf at hfetched
  subst hfetched
  exact { hs with pv := rfl, name := hnames, plays := iff_of_false (fun h => h rfl) hplays }

end Name

theorem respond_remembers (hs : Remembers l s w) (hb : AtBoundary w.z.session) (hname : s.name ≠ .unknown)
    (hlevel : l.filelen ≤ 32767) :
    ∃ w', respond w .evtno = some (.evtno, w') ∧ Says w.joined (joins s.pv l) w' ∧ Conforms l (s.joins hname) w.joined := by
  have henam : w.z.cent.enam ≠ none := fun h => hname ((names_unknown hs.name).mp h)
  obtain ⟨w', hr, hsays⟩ := respond_says hs.idle henam (hs.lcur.symm ▸ hlevel)
  rw [hs.pv, hs.lcur] at hsays
  exact ⟨w', hr, hsays, { hs with
    boundary := hb
    ctr := rfl
    plays := iff_of_true (by show (1 : UInt8) ≠ 0; decide) rfl }⟩

/-- From the password on, a greeting is answered with the level. -/
theorem pass_joins (hp : p.Greets v name) (h₃ : ¬3 > v) (hs : Remembers l s w) (hpv : s.pv = v) (hname : s.name ≠ .unknown)
    (hlevel : l.filelen ≤ 32767) (hr : w.z.session.r = named v) (hrest : w.stdin.rest = p.secret ++ rest) :
    ∃ k w', p.parts.length = 3 + k ∧ Goes (.pass, w) k (.evtno, w') ∧ Conforms l (s.joins hname) w' ∧
      w'.stdout = w.stdout ++ (Heard.joins v l).flatMap (Heard.form v).write ∧ w'.stdin = ⟨rest, w.stdin.eof⟩ := by
  obtain ⟨k, ct, w₁, w₂, hlen, hgoes, hct, -, -, hcloop, sess, hfetched, hb, hw, hcurpv⟩ :=
    goes_secret hp h₃ (hs.pv.trans hpv) hr hrest
  have hs₂ := hfetched.remembers hw (hcurpv.trans (hpv.symm.trans hs.pv.symm)) hs
  obtain ⟨w', hr', hsays, hconforms⟩ := respond_remembers hs₂ (hfetched.session.symm ▸ hb) hname hlevel
  have hout := hsays.out
  have hjoined : w₂.joined.z.session.curpv = v := hs₂.pv.trans hpv
  rw [hpv, hjoined, (spells_joins l).wire] at hout
  exact ⟨k + 1, w', hlen, hgoes.next hct (hcloop.trans hr'), hsays.conforms hconforms,
    hout.trans (congrArg (· ++ _) hfetched.stdout), hsays.reader.2.trans hfetched.stdin⟩

theorem greeted_does (hp : p.Greets v name) (version : Known v) (hs : Conforms l s w) (hlevel : l.filelen ≤ 32767)
    (hrest : w.stdin.rest = p.bytes ++ rest) : Answered l w p rest (s.greeted l v version name) := by
  obtain ⟨w₁, w₀, w₂, hgoes, -, -, hcloop, hread, hholds, hfetched⟩ := goes_name hp hs.boundary hrest
  have hlong : Long w₂.inbuf ↔ ¬trimmed name.val ≤ 20 := (long_trimmed hholds).trans not_le.symm
  have hsession := hfetched.session
  have hout := hfetched.stdout
  have hstdin := hfetched.stdin
  rw [Player.greeted]
  by_cases hshort : trimmed name.val ≤ 20
  · have hs₃ := short_remembers hs.toRemembers version hfetched hholds hshort
    have hreader : (ctname.save w₂).2.z.session.r = named v := congrArg Mcx.r hsession
    rw [ctname_short hread fun h => hlong.mp h hshort] at hcloop
    rw [if_pos hshort]
    by_cases h₃ : 3 > v
    · obtain ⟨hparts, hsecret⟩ := hp.ends h₃
      rw [named_old h₃] at hcloop hreader
      obtain ⟨w', hr, hsays, hconforms⟩ := respond_remembers hs₃
        ⟨congrArg Mcseri.evt hreader, congrArg Mcseri.type hreader, hs₃.pv ▸ version⟩ (of_unlike name).1 hlevel
      have hlen : p.parts.length = 3 := by omega
      refine ⟨w', hlen ▸ hgoes.next (by decide) (hcloop.trans hr), hsays.replied (spells_joins l) hconforms hout ?_⟩
      rw [hsecret, List.nil_append] at hstdin
      exact hstdin
    · have htype : (named v).type = .pass := by rw [named_new h₃]
      rw [htype, respond_silent (by decide)] at hcloop
      obtain ⟨k, w', hlen, hgoes', hconforms, hout', hstdin'⟩ := pass_joins hp h₃ hs₃ rfl (of_unlike name).1 hlevel hreader
        (congrArg Stdin.rest hstdin)
      refine ⟨w', hlen ▸ (hgoes.next (by decide) hcloop).trans hgoes', ⟨hout'.trans (congrArg (· ++ _) hout), ?_, ?_, hconforms⟩⟩
      · rw [hstdin']
      · have heof : w₂.stdin.eof = w.stdin.eof := by rw [hstdin]
        rw [hstdin']
        exact heof
  · have hyes := hlong.mpr hshort
    have hs₃ := long_remembers hs.toRemembers version hfetched hholds hyes
    obtain ⟨w₄, hr, hsays⟩ := ctname_long hread hs₃.idle hyes
    have hs₄ := hsays.remembers hs₃
    have hreader : w₄.z.session.r = named v := hsays.reader.1.trans (congrArg Mcx.r hsession)
    have hstdin₄ : w₄.stdin = ⟨p.secret ++ rest, w.stdin.eof⟩ := hsays.reader.2.trans hstdin
    have hrun := hgoes.next (by decide) (hcloop.trans hr)
    rw [if_neg hshort]
    by_cases h₃ : 3 > v
    · obtain ⟨hparts, hsecret⟩ := hp.ends h₃
      rw [named_old h₃] at hrun hreader
      have hlen : p.parts.length = 3 := by omega
      simp only [if_pos h₃]
      refine ⟨w₄, hlen ▸ hrun, hsays.replied (spells_one (heard_bye _)) ⟨hs₃, ?_⟩ hout ?_⟩
      · have hreader₃ := hsays.reader.1.symm.trans hreader
        exact ⟨congrArg Mcseri.evt hreader₃, congrArg Mcseri.type hreader₃, hs₃.pv ▸ version⟩
      · rw [hsecret, List.nil_append] at hstdin
        exact hstdin
    · have htype : (named v).type = .pass := by rw [named_new h₃]
      rw [htype] at hrun
      simp only [if_neg h₃]
      obtain ⟨k, w', hlen, hgoes', hconforms, hout', hstdin'⟩ := pass_joins hp h₃ hs₄ rfl refused_ne hlevel hreader
        (congrArg Stdin.rest hstdin₄)
      refine ⟨w', hlen ▸ hrun.trans hgoes', ⟨?_, ?_, ?_, hconforms⟩⟩
      · have hbye := hsays.out
        have hv : ((ctname.save w₂).2.withFlg 0).z.session.curpv = v := hs₃.pv
        rw [hv, tooLong, (spells_one (heard_bye "Your name is too long!")).wire] at hbye
        have hsaved : ((ctname.save w₂).2.withFlg 0).stdout = w.stdout := hout
        rw [hout', hbye, hsaved, List.append_assoc, ← List.flatMap_append]
        rfl
      · rw [hstdin']
      · rw [hstdin', hstdin₄]

/-- The program does with a packet what the server answers to it. -/
theorem packet_does (a : Asked) (hs : Conforms l s w) (hlevel : l.filelen ≤ 32767)
    (hrest : w.stdin.rest = a.packet.bytes ++ rest) : hs.Does rest a := by
  cases a with
  | greeting0 name printable => exact greeted_does (.old printable) known_zero hs hlevel hrest
  | greeting v known name pass flags => exact greeted_does (.new known) (known_of known) hs hlevel hrest
  | blkedit upd => exact edit_does hs upd hrest
  | plyrstat eno epos head => exact state_does hs eno epos head hlevel hrest
  | chatmsg eno msg => exact message_does hs eno msg hrest

end Greetings

/-! ### Sequences of packets -/

section Sequences
variable {l : Lvl} {s : Player} {w : World} {rest : List UInt8}

theorem answers_cons {a : Asked} {x : Answer} (h : s.answer l a = some x) (as : List Asked) :
    s.answers l (a :: as) = (x :: (x.next.answers l as).1, (x.next.answers l as).2) := by
  simp only [Player.answers, h]

theorem answers_none {a : Asked} (h : s.answer l a = none) (as : List Asked) : s.answers l (a :: as) = ([], none) := by
  simp only [Player.answers, h]

/-- A sequence of packets is answered up to the first that has no answer. -/
theorem packets_does (as : List Asked) (hs : Conforms l s w) (hlevel : l.filelen ≤ 32767)
    (hrest : w.stdin.rest = as.flatMap Asked.form.write ++ rest) :
    ∃ n ct w', Goes (.evtno, w) n (ct, w') ∧ w'.stdout = w.stdout ++ (s.answers l as).1.flatMap Answer.bytes ∧
      match (s.answers l as).2 with
      | some s' => ct = .evtno ∧ n = (as.map fun a => a.packet.parts.length).sum ∧ Conforms l s' w' ∧
          w'.stdin = ⟨rest, w.stdin.eof⟩
      | none => ct ≠ .invalid ∧ cloop w' ct = none := by
  induction as generalizing s w with
  | nil =>
    refine ⟨0, .evtno, w, .refl _, (List.append_nil _).symm, rfl, rfl, hs, ?_⟩
    rw [← show w.stdin.rest = rest from hrest]
  | cons a as ih =>
    rw [List.flatMap_cons, List.append_assoc, asked_bytes] at hrest
    have hdoes := packet_does a hs hlevel hrest
    rw [Conforms.Does] at hdoes
    cases hx : s.answer l a with
    | none =>
      rw [hx] at hdoes
      obtain ⟨ct, w₁, hgoes, hout, hct, hnone⟩ := hdoes
      rw [answers_none hx]
      exact ⟨_, ct, w₁, hgoes, hout.trans (List.append_nil _).symm, hct, hnone⟩
    | some x =>
      rw [hx] at hdoes
      obtain ⟨w₁, hgoes, hreplied⟩ := hdoes
      obtain ⟨n, ct, w', hgoes', hout, hend⟩ := ih hreplied.conforms hreplied.rest
      rw [answers_cons hx]
      refine ⟨_, ct, w', hgoes.trans hgoes', ?_, ?_⟩
      · rw [hout, hreplied.out, List.flatMap_cons, List.append_assoc]
      · simp only
        rw [hreplied.eof] at hend
        split
        · rename_i s' hs'
          rw [hs'] at hend
          obtain ⟨hct, hn, hend⟩ := hend
          exact ⟨hct, by rw [hn, List.map_cons, List.sum_cons], hend⟩
        · rename_i hs'
          rw [hs'] at hend
          exact hend

end Sequences

end ClassicX
