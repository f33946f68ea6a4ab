import ClassicX.Theorems.Replies

/-! What the handlers say: the events that each handler gives away, in order, and the state it leaves. A handler has no
result where it goes through a name that is not there, or spawns the player by a name of length -1. -/

namespace ClassicX
open Turns (storesAt)

/-- An event with its payload. -/
abbrev Sent := Mcsevt × Src

def wire (v : Int) (es : List Sent) : List (List UInt8) := es.map fun e => packet v e.1 e.2

/-- The events were given away, and but for the writer `w` has not changed. -/
def Says (w : World) (es : List Sent) (w' : World) : Prop := Puts w (wire w.z.session.curpv es).flatten w'

section Says
variable {w w' w'' : World} {es fs : List Sent}

@[simp] theorem wire_append (v : Int) (es fs : List Sent) : wire v (es ++ fs) = wire v es ++ wire v fs := List.map_append

theorem Says.refl (h : w.z.session.Idle) : Says w [] w := Puts.refl h

theorem Says.trans (h : Says w es w') (h' : Says w' fs w'') : Says w (es ++ fs) w'' := by
  rw [Says, Puts.curpv h] at h'
  rw [Says, wire_append, List.flatten_append]
  exact Puts.trans h h'

theorem Says.withCent (c : Mcent) (h : Says w es w') : Says (w.withCent c) es (w'.withCent c) where
  out := h.out
  idle := h.idle
  frame := congrArg (World.withCent · c) h.frame

theorem Says.joined (h : Says w es w') : Says w.joined es w'.joined where
  out := h.out
  idle := h.idle
  frame := congrArg World.joined h.frame

theorem Says.withCtr (n : Int) (h : Says w es w') : Says (w.withCtr n) es (w'.withCtr n) := Puts.withCtr n h

theorem Says.idle (h : Says w es w') : w'.z.session.Idle := Puts.idle h

theorem Says.cent (h : Says w es w') : w'.z.cent = w.z.cent := Puts.cent h

theorem Says.curpv (h : Says w es w') : w'.z.session.curpv = w.z.session.curpv := Puts.curpv h

theorem Says.lcur (h : Says w es w') : w'.z.lcur = w.z.lcur := Puts.lcur h

theorem Says.ctr (h : Says w es w') : w'.ctr = w.ctr := by
  rw [h.frame]
  rfl

theorem Gives.said {r : Option (Int × World)} {e : Mcsevt} {src : Src} (h : Gives w r (packet w.z.session.curpv e src)) :
    ∃ w', r = some (0, w') ∧ Says w [(e, src)] w' := by
  obtain ⟨w', hr, hp⟩ := h
  refine ⟨w', hr, ?_⟩
  rw [Says, wire, List.map_cons, List.map_nil, List.flatten_singleton]
  exact hp

/-- The events have their payloads, and there is no difference at version 0. -/
def Sendable (v : Int) (es : List Sent) : Prop := ∀ e ∈ es, e.1.Casts e.2 ∧ (e.1 = .ediff → 0 ≠ v)

theorem wire_packets {v : Int} (h : Sendable v es) : ∀ p ∈ wire v es, p ∈ packets v := by
  intro p hp
  obtain ⟨e, he, rfl⟩ := List.mem_map.mp hp
  exact packet_mem (h e he).1 (h e he).2

theorem Says.replies (h : Says w es w') (hes : Sendable w.z.session.curpv es) :
    Replies w (wire w.z.session.curpv es) w' :=
  Puts.replies h (wire_packets hes)

theorem quiet_wire {v : Int} : Quiet (wire v es) ↔ ∀ e ∈ es, ¬(e.1 = .pgreeting ∨ e.1 = .ldata ∨ e.1 = .enew) := by
  constructor
  · intro hq e he hjoins
    exact hq _ (List.mem_map_of_mem he) (joins_packet.mpr hjoins)
  · intro hq p hp
    obtain ⟨e, he, rfl⟩ := List.mem_map.mp hp
    exact fun h => hq e he (joins_packet.mp h)

end Says

/-- The ping at the end of an answer. -/
def ping : Sent := (.ping, .null)

theorem wire_ping (v : Int) (src : Src) : wire v [(.ping, src)] = [[1]] := by
  rw [wire, List.map_cons, List.map_nil, packet_eq (fun h => by cases h)]
  rfl

/-- What ends with a ping ends with the byte 1. -/
theorem Says.pinged {w w' : World} {es : List Sent} (h : Says w es w') (hlast : (es.map Prod.fst).getLast? = some .ping) :
    ∃ bs, w'.stdout = w.stdout ++ (bs ++ [1]) := by
  rw [List.getLast?_map, Option.map_eq_some_iff] at hlast
  obtain ⟨⟨e, src⟩, he, rfl⟩ := hlast
  rw [← List.dropLast_append_getLast? _ he] at h
  refine ⟨(wire w.z.session.curpv es.dropLast).flatten, ?_⟩
  rw [h.out, wire_append, wire_ping, List.flatten_append, List.flatten_singleton]

def chat (eid : Int8) (msg : Ptr) : Sent := (.cmsg, .mso ⟨some msg, slen msg, eid⟩)

def bye (msg : Ptr) : Sent := (.pbye, .mso ⟨some msg, slen msg, 0⟩)

/-- The text for a name that is too long. -/
def tooLong : Ptr := cchr "Your name is too long!"

section Senders
variable {w : World}

theorem seping_says (hidle : w.z.session.Idle) : ∃ w', seping w = some (0, w') ∧ Says w [ping] w' :=
  (segeneric_gives .ping .null hidle trivial).said

theorem sechatmsg_says (eid : Int8) (msg : Ptr) (hidle : w.z.session.Idle) :
    ∃ w', sechatmsg w eid msg = some (0, w') ∧ Says w [chat eid msg] w' :=
  (sechatmsg_gives eid msg hidle).said

theorem sebye_says (msg : Ptr) (hidle : w.z.session.Idle) :
    ∃ w', sebye w msg = some (0, w') ∧ Says (w.withFlg 0) [bye msg] w' :=
  (sebye_gives msg hidle).said

end Senders

/-! ### Greetings -/

/-- The answer to a greeting. -/
def joins (v : Int) (l : Lvl) : List Sent :=
  [(.pgreeting, .gto (segreeting.grt v)), (.lnew, .null)] ++
    (List.range l.chunks).map (fun j => (.ldata, .cho ⟨some (l.cdat.incr (1024 * j)), l.clen j, l.clen j, 0⟩)) ++
    [(.ldim, .vec l.dim), (.enew, .eno spawnPlayer), (.enew, .eno spawnClone), ping]

theorem wire_joins (v : Int) (l : Lvl) : wire v (joins v l) = transcript v l := by
  simp only [joins, wire_append, transcript]
  rw [wire, wire, wire, List.map_map]
  rfl

section Greetings
variable {w : World} {t : Mcctyp}

theorem initseq_says (hidle : w.z.session.Idle) (henam : w.z.cent.enam ≠ none) (hlevel : w.z.lcur.filelen ≤ 32767) :
    ∃ w', initseq w = some (0, w') ∧ Says w.joined (joins w.z.session.curpv w.z.lcur) w' := by
  obtain ⟨w', hr, hp⟩ := initseq_gives hidle henam hlevel
  refine ⟨w', hr, ?_⟩
  have hv : w.joined.z.session.curpv = w.z.session.curpv := rfl
  rw [Says, hv, wire_joins]
  exact hp

theorem initseq_none (h : w.z.cent.enam = none) : initseq w = none := by
  have hwarn : Platform.warn (w.withFlg 1).z.cent.enam = none := by
    rw [World.withFlg, h]
    rfl
  simp only [initseq, hwarn, Option.bind_eq_bind, Option.bind_none]

theorem respond_says (hidle : w.z.session.Idle) (henam : w.z.cent.enam ≠ none) (hlevel : w.z.lcur.filelen ≤ 32767) :
    ∃ w', respond w .evtno = some (.evtno, w') ∧ Says w.joined (joins w.z.session.curpv w.z.lcur) w' := by
  obtain ⟨w', hr, hp⟩ := initseq_says hidle henam hlevel
  refine ⟨w', ?_, hp⟩
  simp only [respond, ne_eq, not_true_eq_false, if_false, hr, Option.bind_eq_bind, Option.bind_some, Mcctyp.unless]

theorem respond_silent (ht : t ≠ .evtno) : respond w t = some (t, w) := if_pos (Ne.symm ht)

section Names
variable {w₀ : World} {qty : Int} {v : Option Val} (hread : w₀.mcsread qty false = some (t, w, v))
include hread

theorem ctname_long (hidle : w.z.session.Idle) (h : Long w.inbuf) :
    ∃ w', ctname w₀ qty = some (t, w') ∧ Says ((ctname.save w).2.withFlg 0) [bye tooLong] w' := by
  have hneg : 0 > (ctname.save w).1 := by
    rw [(save_length w).1 h]
    decide
  obtain ⟨w', hr, hp⟩ := sebye_says (w := (ctname.save w).2) tooLong hidle
  refine ⟨w', ?_, hp⟩
  simp only [ctname, hread, Option.bind_eq_bind, Option.bind_some]
  rw [if_pos hneg, ← tooLong, hr]
  rfl

theorem ctname_short (h : ¬Long w.inbuf) : ctname w₀ qty = respond (ctname.save w).2 t := by
  have hpos := (save_length w).2 h
  simp only [ctname, hread, Option.bind_eq_bind, Option.bind_some]
  rw [if_neg (by omega), if_neg (by omega)]

end Names

end Greetings

/-! ### Block updates -/

/-- The update that is echoed: air where a block is removed. -/
def echoed (u : Mcbup) : Mcbup := if Mcumod.clear.code = u.umod then { u with bnew := 0 } else u

section Updates
variable {w₀ w : World} {t : Mcctyp} {qty : Int} {v : Option Val} (hread : w₀.mcsread qty true = some (t, w, v))
include hread

theorem ctblkch_says (hidle : w.z.session.Idle) (henam : w.z.cent.enam ≠ none) :
    ∃ w', ctblkch w₀ qty = some (t, w') ∧ Says w [(.bupdate, .bup (echoed (ctblkch.upd v))), ping] w' := by
  obtain ⟨p, hp⟩ := Option.ne_none_iff_exists'.mp henam
  obtain ⟨w₁, h₁, hp₁⟩ := (segeneric_gives .bupdate (.bup (echoed (ctblkch.upd v))) hidle trivial).said
  obtain ⟨w₂, h₂, hp₂⟩ := seping_says hp₁.idle
  refine ⟨w₂, ?_, hp₁.trans hp₂⟩
  rw [echoed] at h₁
  simp only [ctblkch, hread, hp, warn_stdc, warn, Option.map_some, seblkch, h₁, h₂, Option.bind_eq_bind, Option.bind_some, ne_eq,
    not_true_eq_false, if_false, Mcctyp.unless]

theorem ctblkch_none (henam : w.z.cent.enam = none) : ctblkch w₀ qty = none := by
  simp only [ctblkch, hread, henam, warn_stdc, warn, Option.map_none, Option.bind_eq_bind, Option.bind_some, Option.bind_none]

end Updates

/-! ### Entity states -/

/-- What the clone does: it is at the opposite side, and looks the other way. -/
def mirrors (d : Mcediff) (old new : Mceup) : List Sent :=
  let diff : Mcvec := ⟨old.epos.x - new.epos.x, new.epos.y - old.epos.y, old.epos.z - new.epos.z⟩
  match d with
  | .big => [(.estate, .eup { new with epos := ⟨512 - new.epos.x, new.epos.y, 512 - new.epos.z⟩ })]
  | .all => [(.ediff, .eup { new with epos := diff })]
  | .pos => [(.eslide, .eup { new with epos := diff })]
  | .head => [(.ehead, .eup new)]
  | .eq => []

/-- The answer to a state of the player: nothing to the same state, and no differences at version 0. -/
def moves (v : Int) (old new : Mceup) : List Sent :=
  if .eq = mcescmp old new then []
  else
    mirrors (if 0 = v then .big else mcescmp old new) old
      { new with eno := 0, head := { new.head with yaw := new.head.yaw + 128 } }

/-- The state of the player is remembered unless it is the same. -/
def World.moved (w : World) (old new : Mceup) : World :=
  if .eq = mcescmp old new then w else w.withCent { w.z.cent with toMceup := new }

/-- Both entities again, with the name of the player. -/
def respawns (v : Int) (e : Mcent) : List Sent :=
  [(.edied, .eid 0), (.pgreeting, .gto (segreeting.grt v)), (.enew, .eno (senewactr.ent { e with eno := -1 })),
    (.enew, .eno (senewactr.ent { e with eno := 0 })), ping]

def Mcent.Callable (e : Mcent) : Prop := e.enam.isSome → 0 ≤ e.enln

section States
variable {w : World} {t : Mcctyp} {old new : Mceup}

theorem moved_says (old new : Mceup) (hidle : w.z.session.Idle) :
    ∃ w', ctactrstat.moved w old new = some w' ∧ Says (w.moved old new) (moves w.z.session.curpv old new) w' := by
  rw [ctactrstat.moved, World.moved, moves]
  by_cases heq : .eq = mcescmp old new
  · simp only [if_pos heq]
    exact ⟨w, rfl, .refl hidle⟩
  · simp only [if_neg heq]
    generalize hd : (if 0 = w.z.session.curpv then Mcediff.big else mcescmp old new) = d
    generalize htwin : ({ new with eno := 0, head := { new.head with yaw := new.head.yaw + 128 } } : Mceup) = twin
    have hidle' : (w.withCent { w.z.cent with toMceup := new }).z.session.Idle := hidle
    generalize w.withCent { w.z.cent with toMceup := new } = w₁ at hidle' ⊢
    have hgeneric : ∀ {e : Mcsevt} (param : Src), Generic e param →
        ∃ w', (segeneric w₁ e param).bind (fun x => some x.2) = some w' ∧ Says w₁ [(e, param)] w' := by
      intro e param h
      obtain ⟨w', hr, hp⟩ := (segeneric_gives _ param hidle' h).said
      exact ⟨w', by rw [hr]; rfl, hp⟩
    cases d with
    | eq => exact ⟨w₁, rfl, .refl hidle'⟩
    | head => exact hgeneric (.eup _) trivial
    | pos => exact hgeneric (.eup _) trivial
    | all => exact hgeneric (.eup _) trivial
    | big => exact hgeneric (.eup _) trivial

/-- One of the spawns, by the number `n`. -/
theorem Says.spawn {w w₁ : World} {es : List Sent} (n : Int8) (h : Says w es w₁) (hcall : w.z.cent.Callable) :
    ∃ w₂, senewactr (w₁.withCent { w₁.z.cent with eno := n }) { w₁.z.cent with eno := n } = some (0, w₂) ∧
      Says (w.withCent { w.z.cent with eno := n })
        (es ++ [(.enew, .eno (senewactr.ent { w.z.cent with eno := n }))]) w₂ := by
  rw [h.cent]
  have h' := h.withCent { w.z.cent with eno := n }
  obtain ⟨w₂, hr, hp⟩ := (senewactr_gives (e := { w.z.cent with eno := n }) h'.idle hcall).said
  exact ⟨w₂, hr, h'.trans hp⟩

theorem respawn_says (hidle : w.z.session.Idle) (hctr : w.ctr = 512) (hcall : w.z.cent.Callable) :
    ∃ w', ctactrstat.respawn w t = some (t, w') ∧ Says w (respawns w.z.session.curpv w.z.cent) w' := by
  obtain ⟨w₁, h₁, hp₁⟩ := (segeneric_gives .edied (.eid 0) hidle trivial).said
  obtain ⟨w₂, h₂, hp₂⟩ := (segreeting_gives hp₁.idle).said
  rw [Puts.curpv hp₁] at hp₂
  have heid : w₂.z.cent.eno = w.z.cent.eno := congrArg (·.eno) (hp₁.trans hp₂).cent
  obtain ⟨w₃, h₃, hp₃⟩ := (hp₁.trans hp₂).spawn (-1) hcall
  obtain ⟨w₄, h₄, hp₄⟩ := hp₃.spawn 0 hcall
  have hback : { w₄.z.cent with eno := w₂.z.cent.eno } = w.z.cent := by
    rw [hp₄.cent, heid]
    rfl
  have hp₄ : Says w _ (w₄.withCent w.z.cent) := hp₄.withCent w.z.cent
  obtain ⟨w₅, h₅, hp₅⟩ := seping_says hp₄.idle
  refine ⟨w₅, ?_, hp₄.trans hp₅⟩
  simp only [World.withCent] at h₃ h₄ h₅
  simp only [ctactrstat.respawn, World.withCent, hctr, ne_eq, not_true_eq_false, if_false, seactrdied, h₁, h₂, h₃, h₄,
    hback, h₅, Option.bind_eq_bind, Option.bind_some, Mcctyp.unless]

/-- The number of a name that is too long is the length of no spawn. -/
theorem respawn_none (hidle : w.z.session.Idle) (hctr : w.ctr = 512) (henam : w.z.cent.enam.isSome)
    (henln : w.z.cent.enln = -1) : ctactrstat.respawn w t = none := by
  obtain ⟨w₁, h₁, hp₁⟩ := (segeneric_gives .edied (.eid 0) hidle trivial).said
  obtain ⟨w₂, h₂, hp₂⟩ := (segreeting_gives hp₁.idle).said
  have hcent := (hp₁.trans (by rw [Puts.curpv hp₁] at hp₂; exact hp₂)).cent
  have h₃ := senewactr_none (w := w₂.withCent { w₂.z.cent with eno := -1 }) (e := { w₂.z.cent with eno := -1 })
    hp₂.idle (by rw [hcent]; exact henam) (by rw [hcent]; exact henln)
  simp only [World.withCent] at h₃
  simp only [ctactrstat.respawn, World.withCent, hctr, ne_eq, not_true_eq_false, if_false, seactrdied, h₁, h₂, h₃,
    Option.bind_eq_bind, Option.bind_some, Option.bind_none]

theorem respawn_other (hctr : w.ctr ≠ 512) : ctactrstat.respawn w t = some (t, w) := if_pos hctr

/-- What the handler says to the state of a player who takes part. -/
def plays (w : World) (old new : Mceup) : List Sent :=
  moves w.z.session.curpv old new ++ [ping] ++
    (if w.ctr = 512 then respawns w.z.session.curpv (w.moved old new).z.cent else []) ++
    if w.ctr ≥ 1024 then joins w.z.session.curpv w.z.lcur else []

theorem sendable_nil (v : Int) : Sendable v [] := fun _ he => absurd he List.not_mem_nil

theorem mirrors_sendable {v : Int} {d : Mcediff} (old new : Mceup) (hd : d = .all → 0 ≠ v) : Sendable v (mirrors d old new) := by
  cases d <;> intro e he <;> simp only [mirrors, List.mem_singleton, List.not_mem_nil] at he
  all_goals subst he
  case all => exact ⟨trivial, fun _ => hd rfl⟩
  all_goals exact ⟨trivial, nofun⟩

theorem moves_sendable (v : Int) (old new : Mceup) : Sendable v (moves v old new) := by
  rw [moves]
  split
  · exact sendable_nil v
  · refine mirrors_sendable _ _ fun hall hv => ?_
    rw [if_pos hv] at hall
    cases hall

theorem joins_sendable (v : Int) (l : Lvl) : Sendable v (joins v l) := by
  intro e he
  simp only [joins, List.mem_append, List.mem_cons, List.not_mem_nil, or_false, List.mem_map] at he
  rcases he with ((rfl | rfl) | ⟨j, -, rfl⟩) | rfl | rfl | rfl | rfl <;> exact ⟨trivial, nofun⟩

theorem plays_sendable (w : World) (old new : Mceup) : Sendable w.z.session.curpv (plays w old new) := by
  intro e he
  simp only [plays, List.mem_append, List.mem_singleton] at he
  rcases he with ((he | rfl) | he) | he
  · exact moves_sendable _ _ _ e he
  · exact ⟨trivial, nofun⟩
  · split at he
    · simp only [respawns, List.mem_cons, List.not_mem_nil, or_false] at he
      rcases he with rfl | rfl | rfl | rfl | rfl <;> exact ⟨trivial, nofun⟩
    · cases he
  · split at he
    · exact joins_sendable _ _ e he
    · cases he

/-- The state of the program when a player who takes part has moved. -/
def World.played (w : World) (old new : Mceup) : World :=
  if w.ctr ≥ 1024 then (w.moved old new).joined else w.moved old new

theorem played_same (w : World) (old new : Mceup) : (w.played old new).stdout = w.stdout ∧
    (w.played old new).kept = w.kept ∧ (w.played old new).name = w.name := by
  rw [World.played, World.moved]
  split <;> split <;> exact ⟨rfl, rfl, rfl⟩

/-- The name of the player is fit for what the handler says. -/
def World.Playable (w : World) : Prop := (w.ctr = 512 → w.z.cent.Callable) ∧ (w.ctr ≥ 1024 → w.z.cent.enam ≠ none)

theorem moved_frame (w : World) (old new : Mceup) : (w.moved old new).ctr = w.ctr ∧
    (w.moved old new).z.session = w.z.session ∧ (w.moved old new).z.lcur = w.z.lcur ∧ (w.moved old new).z.flg = w.z.flg ∧
    (w.moved old new).name = w.name := by
  rw [World.moved]
  split <;> exact ⟨rfl, rfl, rfl, rfl, rfl⟩

theorem moved_pings (old new : Mceup) (hidle : w.z.session.Idle) : ∃ w₁ w₂, ctactrstat.moved w old new = some w₁ ∧
    seping w₁ = some (0, w₂) ∧ Says (w.moved old new) (moves w.z.session.curpv old new ++ [ping]) w₂ ∧ w₂.ctr = w.ctr := by
  obtain ⟨w₁, h₁, hp₁⟩ := moved_says old new hidle
  obtain ⟨w₂, h₂, hp₂⟩ := seping_says hp₁.idle
  have hp := hp₁.trans hp₂
  exact ⟨w₁, w₂, h₁, h₂, hp, hp.ctr.trans (moved_frame w old new).1⟩

/-- Both entities are sent again, or nothing is done. -/
theorem respawned_says (hidle : w.z.session.Idle) (hcall : w.ctr = 512 → w.z.cent.Callable) :
    ∃ w', ctactrstat.respawn w t = some (t, w') ∧
      Says w (if w.ctr = 512 then respawns w.z.session.curpv w.z.cent else []) w' := by
  by_cases h512 : w.ctr = 512
  · rw [if_pos h512]
    exact respawn_says hidle h512 (hcall h512)
  · rw [if_neg h512]
    exact ⟨w, respawn_other h512, .refl hidle⟩

theorem joined_says (old new : Mceup) (hidle : w.z.session.Idle) (hlevel : w.z.lcur.filelen ≤ 32767) (hplay : w.Playable) :
    ∃ w', ctactrstat.joined w old new = some (.evtno, w') ∧ Says (w.played old new) (plays w old new) w' := by
  obtain ⟨hctr, hsession, hlcur, -, hname⟩ := moved_frame w old new
  obtain ⟨henam, henln⟩ := Prod.mk.inj hname
  obtain ⟨w₁, w₂, h₁, h₂, hp₂, hctr₂⟩ := moved_pings old new hidle
  have hv₂ : w₂.z.session.curpv = w.z.session.curpv := hp₂.curpv.trans (by rw [hsession])
  have hcall : w₂.ctr = 512 → w₂.z.cent.Callable := by
    intro h512
    rw [Mcent.Callable, hp₂.cent, henam, henln]
    exact hplay.1 (hctr₂.symm.trans h512)
  obtain ⟨w₃, h₃, hspawned⟩ := respawned_says (t := .evtno) hp₂.idle hcall
  rw [hctr₂, hv₂, hp₂.cent] at hspawned
  have hp₃ := hp₂.trans hspawned
  have hctr₃ : w₃.ctr = w.ctr := hp₃.ctr.trans hctr
  rw [World.played, plays]
  by_cases h1024 : w.ctr ≥ 1024
  · have henam₃ : w₃.z.cent.enam ≠ none := by
      rw [hp₃.cent, henam]
      exact hplay.2 h1024
    obtain ⟨w₄, h₄, hp₄⟩ := initseq_says hp₃.idle henam₃ (by rw [hp₃.lcur, hlcur]; exact hlevel)
    have hv₃ : w₃.z.session.curpv = w.z.session.curpv := hp₃.curpv.trans (by rw [hsession])
    rw [hv₃, hp₃.lcur, hlcur] at hp₄
    rw [if_pos h1024, if_pos h1024]
    refine ⟨w₄, ?_, hp₃.joined.trans hp₄⟩
    simp only [ctactrstat.joined, h₁, h₂, h₃, h₄, hctr₃, if_pos h1024, Option.bind_eq_bind, Option.bind_some,
      Mcctyp.unless, ne_eq, not_true_eq_false, if_false]
  · rw [if_neg h1024, if_neg h1024, List.append_nil]
    refine ⟨w₃, ?_, hp₃⟩
    simp only [ctactrstat.joined, h₁, h₂, h₃, hctr₃, if_neg h1024, Option.bind_eq_bind, Option.bind_some, Mcctyp.unless,
      ne_eq, not_true_eq_false, if_false]

theorem joined_none (old new : Mceup) (hidle : w.z.session.Idle) (hname : -1 ≤ w.z.cent.enln) (hplay : ¬w.Playable) :
    ctactrstat.joined w old new = none := by
  obtain ⟨-, -, -, -, hname'⟩ := moved_frame w old new
  obtain ⟨henam, henln⟩ := Prod.mk.inj hname'
  obtain ⟨w₁, w₂, h₁, h₂, hp, hctr₂⟩ := moved_pings old new hidle
  rw [World.Playable, not_and_or] at hplay
  rcases hplay with hplay | hplay
  · obtain ⟨h512, hcall⟩ := Classical.not_imp.mp hplay
    obtain ⟨hsome, hneg⟩ := Classical.not_imp.mp hcall
    have h₃ := respawn_none (t := .evtno) hp.idle (hctr₂.trans h512) (by rw [hp.cent, henam]; exact hsome)
      (by rw [hp.cent, henln]; omega)
    simp only [ctactrstat.joined, h₁, h₂, h₃, Option.bind_eq_bind, Option.bind_some, Option.bind_none, Mcctyp.unless, ne_eq,
      not_true_eq_false, if_false]
  · obtain ⟨h1024, hnone⟩ := Classical.not_imp.mp hplay
    have h₃ := respawn_other (w := w₂) (t := .evtno) (by rw [hctr₂]; omega)
    have h₄ := initseq_none (w := w₂) (by rw [hp.cent, henam]; exact not_not.mp hnone)
    simp only [ctactrstat.joined, h₁, h₂, h₃, h₄, hctr₂, if_pos h1024, Option.bind_eq_bind, Option.bind_some, Option.bind_none,
      Mcctyp.unless, ne_eq, not_true_eq_false, if_false]

section Handler
variable {w₀ : World} {qty : Int} {v : Option Val} (hread : w₀.mcsread qty true = some (t, w, v))
include hread

theorem ctactrstat_waits (hidle : w.z.session.Idle) (hflg : w.z.flg = 0) :
    ∃ w', ctactrstat w₀ qty = some (.evtno, w') ∧ Says (w.withCtr (w.ctr + 1)) [ping] w' := by
  obtain ⟨w₁, h₁, hp₁⟩ := seping_says hidle
  refine ⟨w₁.withCtr (w₁.ctr + 1), ?_, ?_⟩
  · simp only [ctactrstat, hread, hflg, h₁, if_true, Option.bind_eq_bind, Option.bind_some, Mcctyp.unless, ne_eq,
      not_true_eq_false, if_false]
  · rw [hp₁.ctr]
    exact hp₁.withCtr _

theorem ctactrstat_plays (hflg : w.z.flg ≠ 0) : ctactrstat w₀ qty =
    (ctactrstat.joined w w.z.cent.toMceup (ctactrstat.new v)).map fun x => (x.1, x.2.withCtr (x.2.ctr + 1)) := by
  have hcent : w.z.cent = w₀.z.cent := by
    obtain ⟨⟨t', s, v'⟩, -, hw⟩ := Option.bind_eq_some_iff.mp hread
    cases hw
    rfl
  simp only [ctactrstat, hread, if_neg (Ne.symm hflg), Option.bind_eq_bind, Option.bind_some, hcent]
  cases ctactrstat.joined w w₀.z.cent.toMceup (ctactrstat.new v) <;> rfl

theorem ctactrstat_says (hidle : w.z.session.Idle) (hlevel : w.z.lcur.filelen ≤ 32767) (hflg : w.z.flg ≠ 0)
    (hplay : w.Playable) : ∃ w', ctactrstat w₀ qty = some (.evtno, w') ∧
      Says ((w.played w.z.cent.toMceup (ctactrstat.new v)).withCtr
        ((w.played w.z.cent.toMceup (ctactrstat.new v)).ctr + 1)) (plays w w.z.cent.toMceup (ctactrstat.new v)) w' := by
  obtain ⟨w₁, h₁, hp₁⟩ := joined_says w.z.cent.toMceup (ctactrstat.new v) hidle hlevel hplay
  refine ⟨w₁.withCtr (w₁.ctr + 1), ?_, ?_⟩
  · rw [ctactrstat_plays hread hflg, h₁]
    rfl
  · rw [hp₁.ctr]
    exact hp₁.withCtr _

end Handler

end States

/-! ### Messages -/

/-- The events that answer a command that starts with `c`. -/
def commands (w : World) (c : UInt8) : List Mcsevt :=
  match Char.ofNat c.toNat with
  | 'p' => if 10 * (0xF &&& w.inbuf 2) ≠ 0 ∧ 0xF &&& w.inbuf 3 ≠ 0 then [.bupdate] else [.cmsg]
  | 'q' => [.pbye]
  | 'r' => [.edied, .enew]
  | 's' => [.enew]
  | 't' => [.cmsg]
  | 'u' => [.cmsg]
  | 'v' => [.cmsg]
  | 'w' => [.cmsg]
  | 'x' => [.cmsg]
  | 'y' => [.estate]
  | _ => List.replicate 6 .cmsg

/-- Events of these kinds were given away. -/
def Speaks (w : World) (ks : List Mcsevt) (w' : World) : Prop :=
  ∃ es : List Sent, Says w es w' ∧ (∀ e ∈ es, e.1.Casts e.2) ∧ es.map Prod.fst = ks

section Messages
variable {w w' w'' : World} {ks ls : List Mcsevt} {c : UInt8}

theorem Speaks.trans (h : Speaks w ks w') (h' : Speaks w' ls w'') : Speaks w (ks ++ ls) w'' := by
  obtain ⟨es, hp, hes, rfl⟩ := h
  obtain ⟨fs, hp', hfs, rfl⟩ := h'
  refine ⟨es ++ fs, hp.trans hp', fun e he => ?_, List.map_append⟩
  exact (List.mem_append.mp he).elim (hes e) (hfs e)

theorem Says.speaks {e : Mcsevt} {src : Src} (h : Says w [(e, src)] w') (hcasts : e.Casts src) : Speaks w [e] w' :=
  ⟨_, h, fun x hx => by rw [List.mem_singleton.mp hx]; exact hcasts, rfl⟩

theorem ofNat_eq_iff {c d : UInt8} : Char.ofNat c.toNat = Char.ofNat d.toNat ↔ c = d := by
  have hvalid : ∀ b : UInt8, (Char.ofNat b.toNat).toNat = b.toNat := by
    intro b
    have := b.toNat_lt
    rw [Char.ofNat, dif_pos (Or.inl (by omega))]
    rfl
  constructor
  · intro h
    have hnat := congrArg Char.toNat h
    rw [hvalid, hvalid] at hnat
    exact UInt8.toNat_inj.mp hnat
  · rintro rfl
    rfl

theorem help_speaks (msgs : List String) (hidle : w.z.session.Idle) :
    ∃ w', ctmsg.help w msgs = some (0, w') ∧ Speaks w (List.replicate msgs.length .cmsg) w' := by
  induction msgs generalizing w with
  | nil => exact ⟨w, rfl, [], .refl hidle, fun _ he => absurd he List.not_mem_nil, rfl⟩
  | cons msg msgs ih =>
    obtain ⟨w₁, h₁, hp₁⟩ := sechatmsg_says (-1) (cchr msg) hidle
    obtain ⟨w₂, h₂, hp₂⟩ := ih hp₁.idle
    refine ⟨w₂, ?_, (hp₁.speaks trivial).trans hp₂⟩
    simp only [ctmsg.help, h₁, Option.bind_eq_bind, Option.bind_some, ne_eq, not_true_eq_false, if_false, h₂]

/-- The command puts the player out of the game. -/
def World.quit (w : World) (c : UInt8) : World := if c = 0x71 then w.withFlg 0 else w

theorem commands_help {x : Char} (hx : Char.ofNat c.toNat = x) (h : x ∉ ['p', 'q', 'r', 's', 't', 'u', 'v', 'w', 'x', 'y']) :
    commands w c = List.replicate 6 .cmsg := by
  subst hx
  unfold commands
  split
  case h_11 => rfl
  all_goals
    rename_i hx
    rw [hx] at h
    exact absurd (by decide) h

theorem command_speaks (hidle : w.z.session.Idle) (hcall : c = 0x73 → w.z.cent.Callable) :
    ∃ w', ctmsg.command w c = some (0, w') ∧ Speaks (w.quit c) (commands w c) w' := by
  have hq : c = 0x71 ↔ Char.ofNat c.toNat = 'q' := ofNat_eq_iff.symm
  have hs : c = 0x73 ↔ Char.ofNat c.toNat = 's' := ofNat_eq_iff.symm
  have hsay : ∀ (eid : Int8) (msg : Ptr), ∃ w', sechatmsg w eid msg = some (0, w') ∧ Speaks w [.cmsg] w' := by
    intro eid msg
    obtain ⟨w', hr, hp⟩ := sechatmsg_says eid msg hidle
    exact ⟨w', hr, hp.speaks trivial⟩
  rw [hs] at hcall
  rw [World.quit, ctmsg.command]
  simp only [hq]
  generalize hx : Char.ofNat c.toNat = x at hcall ⊢
  split
  case h_11 hp hq hr hs ht hu hv hw hx' hy =>
    obtain ⟨w₁, h₁, hp₁⟩ := help_speaks _ hidle
    have hhelp : x ∉ ['p', 'q', 'r', 's', 't', 'u', 'v', 'w', 'x', 'y'] := by
      simp only [List.mem_cons, List.not_mem_nil, or_false, not_or]
      exact ⟨hp, hq, hr, hs, ht, hu, hv, hw, hx', hy⟩
    rw [if_neg hq, commands_help hx hhelp]
    exact ⟨w₁, h₁, hp₁⟩
  all_goals rw [commands, hx]
  case h_1 =>
    by_cases hdigits : 10 * (0xF &&& w.inbuf 2) ≠ 0 ∧ 0xF &&& w.inbuf 3 ≠ 0
    · simp only [if_pos hdigits]
      generalize (⟨⟨_, _, _⟩, 0, _⟩ : Mcbup) = u
      obtain ⟨w₁, h₁, hp⟩ := (segeneric_gives .bupdate (.bup u) hidle trivial).said
      exact ⟨w₁, by simp only [seblkch, h₁, Option.bind_eq_bind, Option.bind_some], hp.speaks trivial⟩
    · simp only [if_neg hdigits]
      exact hsay _ _
  case h_2 =>
    obtain ⟨w₁, h₁, hp⟩ := sebye_says (cchr "You quit.") hidle
    exact ⟨w₁, h₁, hp.speaks trivial⟩
  case h_3 =>
    obtain ⟨w₁, h₁, hp₁⟩ := (segeneric_gives .edied (.eid 0) hidle trivial).said
    obtain ⟨w₂, h₂, hp₂⟩ := (senewactr_gives (e := { w₁.z.cent with eno := 0, enam := some (cchr "&8You"), enln := 5 })
      hp₁.idle fun _ => (by decide : (0 : Int) ≤ 5)).said
    refine ⟨w₂, ?_, (hp₁.speaks trivial).trans (hp₂.speaks trivial)⟩
    simp only [seactrdied, h₁, h₂, Option.bind_eq_bind, Option.bind_some]
  case h_4 =>
    obtain ⟨w₁, h₁, hp⟩ := (senewactr_gives
      (e := { initseq.spwn with eno := -1, enam := w.z.cent.enam, enln := w.z.cent.enln }) hidle (hcall rfl)).said
    exact ⟨w₁, h₁, hp.speaks trivial⟩
  case h_10 =>
    obtain ⟨w₁, h₁, hp⟩ := (segeneric_gives .estate (.eup { initseq.spwn.toMceup with eno := -1 }) hidle trivial).said
    exact ⟨w₁, h₁, hp.speaks trivial⟩
  all_goals exact hsay _ _

theorem command_none (hidle : w.z.session.Idle) (henam : w.z.cent.enam.isSome) (henln : w.z.cent.enln = -1) :
    ctmsg.command w 0x73 = none :=
  senewactr_none (e := { initseq.spwn with eno := -1, enam := w.z.cent.enam, enln := w.z.cent.enln }) hidle henam henln

theorem echo_stores (enam src : Ptr) {enln qty : Int} (hlen : 0 ≤ enln ∧ enln ≤ 20) (hqty : 0 ≤ qty) :
    (∀ st ∈ (ctmsg.echo enam enln src qty).1, 0 ≤ st.1 ∧ st.1 ≤ 63) ∧ 0 ≤ (ctmsg.echo enam enln src qty).2 := by
  have hcopy := length_scopy enam
  have hne : MCSTRLEN ≠ enln ∧ MCSTRLEN ≠ enln + 1 := by
    rw [MCSTRLEN]
    omega
  have hmax : 0 ≤ mins (MCSTRLEN - (enln + 1 + 1)) qty ∧ enln + 1 + 1 + mins (MCSTRLEN - (enln + 1 + 1)) qty ≤ 64 := by
    rw [mins_eq, MCSTRLEN]
    omega
  simp only [ctmsg.echo, if_pos hne.1, if_pos hne.2]
  generalize mins (MCSTRLEN - (enln + 1 + 1)) qty = max at hmax ⊢
  have hinside : ∀ {n : Int} {bs : List UInt8} {st : Int × UInt8}, 0 ≤ n → n + bs.length ≤ 64 → st ∈ storesAt n bs →
      0 ≤ st.1 ∧ st.1 ≤ 63 := by
    intro n bs st hn hle hst
    have := Turns.mem_storesAt hst
    omega
  have hstores : ∀ st ∈ storesAt 0 (scopy enam) ++ [(enln, 0x3A)] ++ [(enln + 1, 0x20)] ++
      storesAt (enln + 1 + 1) (src.take max.toNat), 0 ≤ st.1 ∧ st.1 ≤ 63 := by
    intro st hst
    simp only [List.mem_append, List.mem_singleton] at hst
    rcases hst with ((hst | rfl) | rfl) | hst
    · exact hinside le_rfl (by omega) hst
    · exact ⟨hlen.1, by omega⟩
    · exact ⟨by omega, by omega⟩
    · exact hinside (by omega) (by rw [length_take]; omega) hst
  refine ⟨fun st hst => ?_, hmax.1⟩
  split at hst
  · rename_i hlast
    rcases List.mem_append.mp hst with hst | hst
    · exact hstores st hst
    · obtain rfl := List.mem_singleton.mp hst
      rw [MCSTRLEN] at hlast
      exact ⟨by omega, by omega⟩
  · exact hstores st hst

theorem text_some (enam src : Ptr) {enln qty : Int} (hlen : 0 ≤ enln ∧ enln ≤ 20) (hqty : 0 ≤ qty) :
    ∃ msg, ctmsg.text enam enln src qty = some msg := by
  obtain ⟨hstores, hmax⟩ := echo_stores enam src hlen hqty
  simp only [ctmsg.text, if_neg (not_lt.mpr hmax)]
  refine poke_some (fun st hst => ⟨(hstores st hst).1, ?_⟩) _
  have := (hstores st hst).2
  rw [MCSTRLEN]
  omega

/-- A name of length -1 puts the colon before the message. -/
theorem text_none (enam src : Ptr) (qty : Int) : ctmsg.text enam (-1) src qty = none := by
  have hne : MCSTRLEN ≠ -1 ∧ MCSTRLEN ≠ -1 + 1 := by decide
  have hmem : ((-1 : Int), (0x3A : UInt8)) ∈ (ctmsg.echo enam (-1) src qty).1 := by
    simp only [ctmsg.echo, if_pos hne.1, if_pos hne.2]
    split <;> simp
  rw [ctmsg.text]
  simp only
  split
  · rfl
  · exact poke_none hmem (by decide)

/-- The name of the player is fit for what the handler says. -/
def World.Sayable (w : World) : Prop :=
  w.z.cent.enam ≠ none ∧ (w.inbuf 0 = 0x2F → w.inbuf 1 = 0x73 → 0 ≤ w.z.cent.enln) ∧ (w.inbuf 0 ≠ 0x2F → 0 ≤ w.z.cent.enln)

/-- The state of the program when a message was answered. -/
def World.quits (w : World) : World := if w.inbuf 0 = 0x2F then w.quit (w.inbuf 1) else w

theorem quits_same (w : World) : w.quits.stdout = w.stdout ∧ w.quits.kept = w.kept ∧ w.quits.name = w.name ∧
    (w.z.flg = 0 → w.quits.z.flg = 0) := by
  rw [World.quits, World.quit]
  split
  · split
    · exact ⟨rfl, rfl, rfl, fun _ => rfl⟩
    · exact ⟨rfl, rfl, rfl, id⟩
  · exact ⟨rfl, rfl, rfl, id⟩

/-- The events that answer a message. -/
def speeches (w : World) : List Mcsevt :=
  if w.inbuf 0 = 0x2F then commands w (w.inbuf 1) ++ [.ping] else [.cmsg, .ping]

section Handler
variable {w₀ : World} {t : Mcctyp} {qty : Int} {v : Option Val} (hread : w₀.mcsread qty false = some (t, w, v))
include hread

theorem ctmsg_says (hidle : w.z.session.Idle) {p msg : Ptr} (henam : w.z.cent.enam = some p) (hslash : w.inbuf 0 ≠ 0x2F)
    (hmsg : ctmsg.text p w.z.cent.enln w.inbuf qty = some msg) :
    ∃ w', ctmsg w₀ qty = some (t, w') ∧ Says w [chat 0 msg, ping] w' := by
  obtain ⟨w₁, h₁, hp₁⟩ := sechatmsg_says 0 msg hidle
  obtain ⟨w₂, h₂, hp₂⟩ := seping_says hp₁.idle
  refine ⟨w₂, ?_, hp₁.trans hp₂⟩
  simp only [ctmsg, hread, henam, warn_stdc, warn, Option.map_some, if_neg (Ne.symm hslash), hmsg, h₁, h₂, Option.bind_eq_bind,
    Option.bind_some, Mcctyp.unless, ne_eq, not_true_eq_false, if_false]

theorem ctmsg_speaks (hidle : w.z.session.Idle) (hqty : 0 ≤ qty) (hlen : w.z.cent.enln ≤ 20) (hsay : w.Sayable) :
    ∃ w', ctmsg w₀ qty = some (t, w') ∧ Speaks w.quits (speeches w) w' := by
  obtain ⟨henam, hspawn, hecho⟩ := hsay
  obtain ⟨p, hp⟩ := Option.ne_none_iff_exists'.mp henam
  rw [speeches, World.quits]
  by_cases hslash : w.inbuf 0 = 0x2F
  · obtain ⟨w₁, h₁, hp₁⟩ := command_speaks (c := w.inbuf 1) hidle fun hs _ => hspawn hslash hs
    obtain ⟨es, hspoke, -⟩ := id hp₁
    obtain ⟨w₂, h₂, hp₂⟩ := seping_says hspoke.idle
    rw [if_pos hslash, if_pos hslash]
    refine ⟨w₂, ?_, hp₁.trans (hp₂.speaks trivial)⟩
    simp only [ctmsg, hread, hp, warn_stdc, warn, Option.map_some, if_pos hslash.symm, h₁, h₂, Option.bind_eq_bind, Option.bind_some,
      Mcctyp.unless, ne_eq, not_true_eq_false, if_false]
  · obtain ⟨msg, hmsg⟩ := text_some p w.inbuf ⟨hecho hslash, hlen⟩ hqty
    obtain ⟨w₁, h₁, hp₁⟩ := ctmsg_says hread hidle hp hslash hmsg
    rw [if_neg hslash, if_neg hslash]
    refine ⟨w₁, h₁, _, hp₁, fun e he => ?_, rfl⟩
    simp only [List.mem_cons, List.not_mem_nil, or_false] at he
    rcases he with rfl | rfl <;> trivial

theorem ctmsg_none (hidle : w.z.session.Idle) (hlen : -1 ≤ w.z.cent.enln) (hsay : ¬w.Sayable) : ctmsg w₀ qty = none := by
  cases hp : w.z.cent.enam with
  | none =>
    simp only [ctmsg, hread, hp, warn_stdc, warn, Option.map_none, Option.bind_eq_bind, Option.bind_some, Option.bind_none]
  | some p =>
    have hneg : (w.inbuf 0 = 0x2F ∧ w.inbuf 1 = 0x73 ∨ w.inbuf 0 ≠ 0x2F) ∧ w.z.cent.enln = -1 := by
      by_contra hno
      refine hsay ⟨by simp [hp], fun h0 h1 => ?_, fun h0 => ?_⟩
      · have : w.z.cent.enln ≠ -1 := fun h => hno ⟨Or.inl ⟨h0, h1⟩, h⟩
        omega
      · have : w.z.cent.enln ≠ -1 := fun h => hno ⟨Or.inr h0, h⟩
        omega
    obtain ⟨⟨hslash, hs⟩ | hslash, henln⟩ := hneg
    · have hcommand : ctmsg.command w (w.inbuf 1) = none := by
        rw [hs]
        exact command_none hidle (by simp [hp]) henln
      simp only [ctmsg, hread, hp, warn_stdc, warn, Option.map_some, if_pos hslash.symm, hcommand, Option.bind_eq_bind,
        Option.bind_some, Option.bind_none]
    · simp only [ctmsg, hread, hp, warn_stdc, warn, Option.map_some, if_neg (Ne.symm hslash), henln, text_none, Option.bind_eq_bind,
        Option.bind_some, Option.bind_none]

end Handler

end Messages

end ClassicX
