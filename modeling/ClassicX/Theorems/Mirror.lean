import ClassicX.Theorems.Differences
import ClassicX.Theorems.Driving

/-! The clone, as the client sees it. It starts where a join puts it, and follows the states and the differences that the
server gives away: it is at the opposite side of the player once a state was sent, or where the state that the server
remembers is the opposite side of the start. -/

namespace ClassicX

/-! ### What the client sees -/

/-- The bytes of a packet from `k` on. -/
def field (p : List UInt8) (k : ℕ) : Ptr := fun i => p.getD (k + i.toNat) 0

/-- What becomes of the place of an entity by a packet that is about it: a spawn and a state put it somewhere, and a
    difference moves it. At version 0 a packet of number 9 is a death. -/
def place (v : Int) (c : Option Mcvec) (p : List UInt8) : Option Mcvec :=
  match (p.getD 0 0).toNat with
  | 7 => some (i3read (field p 66))
  | 8 => some (i3read (field p 2))
  | 9 => if 0 = v then c else c.map (·.add (read3d (field p 2)))
  | 10 => c.map (·.add (read3d (field p 2)))
  | _ => c

/-- Where the clone is when a packet came. It is entity 0. -/
def see (v : Int) (c : Option Mcvec) (p : List UInt8) : Option Mcvec :=
  if readb (field p 1) = 0 then place v c p else c

def sees (c : Option Mcvec) : Sent → Option Mcvec
  | (.enew, .eno e) => if e.eno = 0 then some e.epos else c
  | (.estate, .eup e) => if e.eno = 0 then some e.epos else c
  | (.ediff, .eup e) => if e.eno = 0 then c.map (·.add e.epos) else c
  | (.eslide, .eup e) => if e.eno = 0 then c.map (·.add e.epos) else c
  | _ => c

/-- A difference has no coordinate past 127, and there is none with a head at version 0. -/
def Exact (v : Int) (e : Sent) : Prop :=
  e.1.Casts e.2 ∧ (e.1 = .ediff → 0 ≠ v) ∧ ∀ u, e = (.ediff, .eup u) ∨ e = (.eslide, .eup u) → u.epos.Small

theorem holds_field {p a bs c : List UInt8} (h : p = a ++ (bs ++ c)) : Holds (field p a.length) bs := by
  intro i hi
  rw [h, field, Int.toNat_natCast, List.getD_eq_getElem?_getD, List.getElem?_append_right (Nat.le_add_right _ _),
    Nat.add_sub_cancel_left, List.getElem?_append_left hi, List.getElem?_eq_getElem hi, Option.getD_some]

section Packets
variable {v : Int} {c : Option Mcvec} {p : List UInt8} {num : UInt8}

/-- The number of an entity follows that of the packet. -/
theorem see_entity {eno : Int8} {bs : List UInt8} (hp : p = num :: (writeb eno ++ bs)) :
    see v c p = if eno = 0 then place v c p else c := by
  have heno : readb (field p 1) = eno := readb_writeb (holds_field (a := [num]) hp)
  rw [see, heno]

/-- Only packets of four numbers are about the place of an entity. -/
theorem see_other (hp : p.head? = some num) (hnum : num ≠ 7 ∧ num ≠ 8 ∧ num ≠ 10) (hdied : num = 9 → 0 = v) :
    see v c p = c := by
  have hget : p.getD 0 0 = num := by
    rw [List.getD_eq_getElem?_getD, ← List.head?_eq_getElem?, hp, Option.getD_some]
  have hplace : place v c p = c := by
    rw [place, hget]
    split
    · exact absurd (UInt8.toNat_inj.mp ‹_›) hnum.1
    · exact absurd (UInt8.toNat_inj.mp ‹_›) hnum.2.1
    · exact if_pos (hdied (UInt8.toNat_inj.mp ‹_›))
    · exact absurd (UInt8.toNat_inj.mp ‹_›) hnum.2.2
    · rfl
  rw [see, hplace, ite_self]

theorem see_still {e : Mcsevt} {src : Src} (h : e ≠ .enew ∧ e ≠ .estate ∧ e ≠ .ediff ∧ e ≠ .eslide) :
    see v c (packet v e src) = c := by
  have hhead := head_packet v e src
  by_cases hdied : .edied = e ∧ 0 = v
  · rw [if_pos hdied] at hhead
    exact see_other hhead (by decide) fun _ => hdied.2
  · rw [if_neg hdied] at hhead
    have hnum : ∀ num, (Int8.ofInt (seencode e).code).toUInt8 = num → num ≠ 7 ∧ num ≠ 8 ∧ num ≠ 10 ∧ num ≠ 9 := by
      rintro _ rfl
      revert h
      cases e <;> decide
    obtain ⟨h7, h8, h10, h9⟩ := hnum _ rfl
    exact see_other hhead ⟨h7, h8, h10⟩ fun h => absurd h h9

theorem see_packet {e : Sent} (h : Exact v e) : see v c (packet v e.1 e.2) = sees c e := by
  obtain ⟨e, src⟩ := e
  obtain ⟨hcasts, hdiff, hsmall⟩ := h
  have hpacket : ∀ {e src}, e ≠ .edied → packet v e src = encode v e src := fun he => packet_eq fun h => absurd h.symm he
  cases e <;> cases src <;> first | exact hcasts.elim | skip
  case enew.eno e =>
    have hp : packet v .enew (.eno e) =
        7 :: (writeb e.eno ++ ((strField e.enam e.enln).flat ++ (writevec e.epos ++ write2u e.head))) := by
      rw [hpacket (by decide)]
      simp [encode, layout]
      rfl
    have hlen : (7 :: (writeb e.eno ++ (strField e.enam e.enln).flat)).length = 66 := by simp
    have hsplit : packet v .enew (.eno e) = 7 :: (writeb e.eno ++ (strField e.enam e.enln).flat) ++
        (writevec e.epos ++ write2u e.head) := hp.trans (by simp)
    have hpos := i3read_writevec (holds_field hsplit)
    rw [hlen] at hpos
    have hplace : place v c (packet v .enew (.eno e)) = some e.epos := by
      rw [← hpos, hp]
      rfl
    rw [see_entity hp, hplace]
    rfl
  case estate.eup e =>
    have hp : packet v .estate (.eup e) = 8 :: (writeb e.eno ++ (writevec e.epos ++ write2u e.head)) := by
      rw [hpacket (by decide)]
      rfl
    have hpos := i3read_writevec (holds_field (a := 8 :: writeb e.eno) hp)
    have hplace : place v c (packet v .estate (.eup e)) = some e.epos := by
      rw [← hpos, hp]
      rfl
    rw [see_entity hp, hplace]
    rfl
  case ediff.eup e =>
    have hp : packet v .ediff (.eup e) = 9 :: (writeb e.eno ++ (write3d e.epos ++ write2u e.head)) := by
      rw [hpacket (by decide)]
      rfl
    have hpos := read3d_write3d (hsmall e (Or.inl rfl)) (holds_field (a := 9 :: writeb e.eno) hp)
    have hplace : place v c (packet v .ediff (.eup e)) = c.map (·.add e.epos) := by
      rw [← hpos, hp]
      exact if_neg (hdiff rfl)
    rw [see_entity hp, hplace]
    rfl
  case eslide.eup e =>
    have hp : packet v .eslide (.eup e) = 10 :: (writeb e.eno ++ write3d e.epos) := by
      rw [hpacket (by decide)]
      rfl
    have hpos := read3d_write3d (hsmall e (Or.inr rfl)) (holds_field (a := 10 :: writeb e.eno) (c := [])
      (hp.trans (by simp)))
    have hplace : place v c (packet v .eslide (.eup e)) = c.map (·.add e.epos) := by
      rw [← hpos, hp]
      rfl
    rw [see_entity hp, hplace]
    rfl
  all_goals exact see_still (by simp)

end Packets

/-! ### The opposite side -/

def opposite (p : Mcvec) : Mcvec := ⟨512 - p.x, p.y, 512 - p.z⟩

/-- The state that is remembered after the state `new` of the player. -/
def remember (old new : Mceup) : Mceup := if .eq = mcescmp old new then old else new

/-- The answer to the state of the player is a state of the clone. -/
def Resets (v : Int) (old new : Mceup) : Prop := mcescmp old new = .big ∨ 0 = v ∧ mcescmp old new ≠ .eq

section Moves
variable {v : Int} {old new : Mceup}

theorem remember_epos : (remember old new).epos = new.epos := by
  rw [remember]
  split
  · rename_i heq
    rcases mcescmp_eq old new with ⟨-, h⟩ | ⟨-, ⟨-, -, h⟩ | ⟨-, -, h⟩ | ⟨-, -, h⟩ | ⟨h, -, -⟩⟩
    all_goals first | exact h | (rw [h] at heq; cases heq)
  · rfl

theorem small_mirror (h : (old.epos.sub new.epos).Small) :
    Mcvec.Small ⟨old.epos.x - new.epos.x, new.epos.y - old.epos.y, old.epos.z - new.epos.z⟩ :=
  ⟨h.1, (small_swap h).2.1, h.2.2⟩

/-- A difference leads to the opposite side from the opposite side, and from nowhere else. -/
theorem add_opposite (old new : Mceup) {c : Mcvec} :
    c.add ⟨old.epos.x - new.epos.x, new.epos.y - old.epos.y, old.epos.z - new.epos.z⟩ = opposite new.epos ↔
      c = opposite old.epos := by
  obtain ⟨cx, cy, cz⟩ := c
  simp only [Mcvec.add, opposite, Mcvec.mk.injEq]
  grind

/-- The answer to the state of a player, by its kind. -/
theorem moves_cases (v : Int) (old new : Mceup) : ∃ head,
    Resets v old new ∧ moves v old new = [(.estate, .eup ⟨0, opposite new.epos, head⟩)] ∨
    ¬Resets v old new ∧ (old.epos.sub new.epos).Small ∧ (0 ≠ v ∧
        moves v old new = [(.ediff, .eup ⟨0, ⟨old.epos.x - new.epos.x, new.epos.y - old.epos.y, old.epos.z - new.epos.z⟩, head⟩)] ∨
      moves v old new = [(.eslide, .eup ⟨0, ⟨old.epos.x - new.epos.x, new.epos.y - old.epos.y, old.epos.z - new.epos.z⟩, head⟩)]) ∨
    ¬Resets v old new ∧ old.epos = new.epos ∧
      (moves v old new = [(.ehead, .eup ⟨0, new.epos, head⟩)] ∨ moves v old new = []) := by
  refine ⟨{ new.head with yaw := new.head.yaw + 128 }, ?_⟩
  have hresets : ∀ {d : Mcediff}, mcescmp old new = d → d ≠ .eq → (d = .big ∨ 0 = v) →
      Resets v old new ∧ moves v old new =
        [(.estate, .eup ⟨0, opposite new.epos, { new.head with yaw := new.head.yaw + 128 }⟩)] := by
    intro d hd heq hbig
    rw [Resets, moves, hd, if_neg heq.symm]
    refine ⟨hbig.imp_right fun h => ⟨h, heq⟩, ?_⟩
    rw [show (if 0 = v then Mcediff.big else d) = .big by rcases hbig with rfl | h <;> simp [*]]
    rfl
  have hdiffers : ∀ {d : Mcediff}, mcescmp old new = d → d ≠ .eq → ¬(d = .big ∨ 0 = v) →
      ¬Resets v old new ∧ moves v old new =
        mirrors d old { new with eno := 0, head := { new.head with yaw := new.head.yaw + 128 } } := by
    intro d hd heq hno
    rw [not_or] at hno
    rw [Resets, moves, hd, if_neg heq.symm, if_neg hno.2]
    exact ⟨fun h => h.elim hno.1 fun h => hno.2 h.1, rfl⟩
  rcases mcescmp_eq old new with ⟨-, hd⟩ | ⟨hsmall, ⟨-, -, hd⟩ | ⟨-, -, hd⟩ | ⟨hpos, -, hd⟩ | ⟨hpos, -, hd⟩⟩
  · exact Or.inl (hresets hd (by decide) (Or.inl rfl))
  · by_cases hv : 0 = v
    · exact Or.inl (hresets hd (by decide) (Or.inr hv))
    · obtain ⟨hno, hmoves⟩ := hdiffers hd (by decide) (by simp [hv])
      exact Or.inr (Or.inl ⟨hno, hsmall, Or.inl ⟨hv, hmoves⟩⟩)
  · by_cases hv : 0 = v
    · exact Or.inl (hresets hd (by decide) (Or.inr hv))
    · obtain ⟨hno, hmoves⟩ := hdiffers hd (by decide) (by simp [hv])
      exact Or.inr (Or.inl ⟨hno, hsmall, Or.inr hmoves⟩)
  · by_cases hv : 0 = v
    · exact Or.inl (hresets hd (by decide) (Or.inr hv))
    · obtain ⟨hno, hmoves⟩ := hdiffers hd (by decide) (by simp [hv])
      exact Or.inr (Or.inr ⟨hno, hpos, Or.inl hmoves⟩)
  · refine Or.inr (Or.inr ⟨?_, hpos, Or.inr ?_⟩)
    · rw [Resets, hd]
      simp
    · rw [moves, hd, if_pos rfl]

theorem moves_exact (v : Int) (old new : Mceup) : ∀ e ∈ moves v old new, Exact v e := by
  intro e he
  have hsend := moves_sendable v old new e he
  refine ⟨hsend.1, hsend.2, fun u hu => ?_⟩
  obtain ⟨head, ⟨-, h⟩ | ⟨-, hsmall, ⟨-, h⟩ | h⟩ | ⟨-, -, h | h⟩⟩ := moves_cases v old new <;>
    rw [h] at he <;> simp only [List.mem_singleton, List.not_mem_nil] at he <;> subst he
  all_goals rcases hu with hu | hu <;> cases hu
  all_goals exact small_mirror hsmall

theorem moves_sees {c : Mcvec} : (moves v old new).foldl sees (some c) = some (opposite new.epos) ↔
    c = opposite old.epos ∨ Resets v old new := by
  obtain ⟨head, ⟨hyes, h⟩ | ⟨hno, -, ⟨-, h⟩ | h⟩ | ⟨hno, hpos, h | h⟩⟩ := moves_cases v old new <;> rw [h]
  · exact iff_of_true rfl (Or.inr hyes)
  · rw [or_iff_left hno, ← add_opposite old new]
    exact Option.some_inj
  · rw [or_iff_left hno, ← add_opposite old new]
    exact Option.some_inj
  · rw [or_iff_left hno, hpos]
    exact Option.some_inj
  · rw [or_iff_left hno, hpos]
    exact Option.some_inj

/-- The clone stays somewhere. -/
theorem moves_somewhere (v : Int) (old new : Mceup) (c : Mcvec) : ∃ c', (moves v old new).foldl sees (some c) = some c' := by
  obtain ⟨head, ⟨-, h⟩ | ⟨-, -, ⟨-, h⟩ | h⟩ | ⟨-, -, h | h⟩⟩ := moves_cases v old new <;> rw [h] <;> exact ⟨_, rfl⟩

end Moves

/-! ### A sequence of states -/

/-- The state that `ctactrstat` is told by a packet. -/
def told (u : Mceup) : Mceup := ctactrstat.new (some (.stat u.epos u.head))

/-- The answers to the states of a player. -/
def answers (v : Int) : Mceup → List Mceup → List Sent
  | _, [] => []
  | old, u :: us => moves v old (told u) ++ [ping] ++ answers v (remember old (told u)) us

section Answers
variable {v : Int}

theorem answers_exact (old : Mceup) (us : List Mceup) : ∀ e ∈ answers v old us, Exact v e := by
  induction us generalizing old with
  | nil => exact fun e he => absurd he List.not_mem_nil
  | cons u us ih =>
    intro e he
    simp only [answers, List.mem_append, List.mem_singleton] at he
    rcases he with (he | rfl) | he
    · exact moves_exact v old (told u) e he
    · exact ⟨trivial, nofun, fun u hu => by rcases hu with hu | hu <;> cases hu⟩
    · exact ih _ e he

/-- The clone is at the opposite side after every state exactly if it is there after the first one. -/
theorem answers_sees {old : Mceup} {us : List Mceup} {c : Mcvec} :
    (∀ k (hk : k < us.length), (answers v old (us.take (k + 1))).foldl sees (some c) = some (opposite us[k].epos)) ↔
      ∀ u ∈ us.head?, c = opposite old.epos ∨ Resets v old (told u) := by
  induction us generalizing old c with
  | nil => simp
  | cons u us ih =>
    obtain ⟨c', hc'⟩ := moves_somewhere v old (told u) c
    have hfold : ∀ us, (answers v old (u :: us)).foldl sees (some c) =
        (answers v (remember old (told u)) us).foldl sees (some c') := by
      intro us
      rw [answers, List.foldl_append, List.foldl_append, hc']
      rfl
    have hfirst : c' = opposite (told u).epos ↔ c = opposite old.epos ∨ Resets v old (told u) := by
      rw [← moves_sees, hc', Option.some_inj]
    simp only [List.head?_cons, Option.mem_some_iff, forall_eq']
    rw [← hfirst]
    constructor
    · intro hall
      have h0 := hall 0 (Nat.succ_pos _)
      rw [List.take_succ_cons, hfold] at h0
      exact Option.some_inj.mp h0
    · intro hc k hk
      rw [List.take_succ_cons, hfold]
      cases k with
      | zero => exact congrArg some hc
      | succ k => exact ih.mpr (fun _ _ => Or.inl (by rw [remember_epos, hc])) k (Nat.lt_of_succ_lt_succ hk)

end Answers

/-! ### Runs -/

def Mceup.bytes (u : Mceup) : List UInt8 := (CPacket.plyrstat u.eno u.epos u.head).bytes

/-- The player of a server that is between two packets takes part. -/
structure Partakes (w : World) : Prop where
  boundary : AtBoundary w.z.session
  idle : w.z.session.Idle
  level : w.z.lcur.filelen ≤ 32767
  flg : w.z.flg ≠ 0

section Runs
variable {w : World} {rest : List UInt8}

/-- A state is answered by what the clone does, and a ping. -/
theorem ctactrstat_partakes {w₀ : World} {t : Mcctyp} {qty : Int} {u : Mceup} (h : Partakes w) (hctr : w.ctr < 512)
    (hread : w₀.mcsread qty true = some (t, w, some (.stat u.epos u.head))) :
    ∃ w', ctactrstat w₀ qty = some (.evtno, w') ∧ Partakes w' ∧ w'.ctr = w.ctr + 1 ∧ w'.stdin = w.stdin ∧
      w'.stdout = w.stdout ++ (wire w.z.session.curpv (moves w.z.session.curpv w.z.cent.toMceup (told u) ++ [ping])).flatten ∧
      w'.z.session.curpv = w.z.session.curpv ∧ w'.z.cent.toMceup = remember w.z.cent.toMceup (told u) := by
  have h512 : w.ctr ≠ 512 := by omega
  have h1024 : ¬w.ctr ≥ 1024 := by omega
  obtain ⟨w', hr, hspoke⟩ := ctactrstat_says hread h.idle h.level h.flg ⟨fun h => absurd h h512, fun h => absurd h h1024⟩
  have hplays : plays w w.z.cent.toMceup (told u) = moves w.z.session.curpv w.z.cent.toMceup (told u) ++ [ping] := by
    rw [plays, if_neg h512, if_neg h1024, List.append_nil, List.append_nil]
  have hplayed : w.played w.z.cent.toMceup (told u) = w.moved w.z.cent.toMceup (told u) := if_neg h1024
  obtain ⟨hctr', hsession, hlcur, hflg, -⟩ := moved_frame w w.z.cent.toMceup (told u)
  have hstate : (w.moved w.z.cent.toMceup (told u)).stdout = w.stdout ∧ (w.moved w.z.cent.toMceup (told u)).stdin = w.stdin ∧
      (w.moved w.z.cent.toMceup (told u)).z.cent.toMceup = remember w.z.cent.toMceup (told u) := by
    rw [World.moved, remember]
    split <;> exact ⟨rfl, rfl, rfl⟩
  have hspoke : Says ((w.moved w.z.cent.toMceup (told u)).withCtr ((w.moved w.z.cent.toMceup (told u)).ctr + 1))
      (moves w.z.session.curpv w.z.cent.toMceup (told u) ++ [ping]) w' := hplayed ▸ hplays ▸ hspoke
  generalize w.moved w.z.cent.toMceup (told u) = w₁ at *
  have hframe := hspoke.frame
  refine ⟨w', hr, ⟨?_, hspoke.idle, ?_, ?_⟩, ?_, ?_, ?_, ?_, ?_⟩
  · have hb := h.boundary
    rw [← hsession] at hb
    rw [hframe]
    exact ⟨hb.evt, hb.type, hb.pv⟩
  · rw [hspoke.lcur]
    exact hlcur ▸ h.level
  · rw [hframe]
    exact hflg ▸ h.flg
  · rw [hspoke.ctr, ← hctr']
    rfl
  · rw [hframe]
    exact hstate.2.1
  · rw [hspoke.out, ← hsession]
    exact congrArg (· ++ _) hstate.1
  · rw [hspoke.curpv, ← hsession]
    rfl
  · rw [hspoke.cent]
    exact hstate.2.2

theorem goes_state {u : Mceup} (h : Partakes w) (hctr : w.ctr < 512) (hrest : w.stdin.rest = u.bytes ++ rest) :
    ∃ w', Goes (.evtno, w) 3 (.evtno, w') ∧ Partakes w' ∧ w'.ctr = w.ctr + 1 ∧ w'.stdin.rest = rest ∧
      w'.stdout = w.stdout ++ (wire w.z.session.curpv (moves w.z.session.curpv w.z.cent.toMceup (told u) ++ [ping])).flatten ∧
      w'.z.session.curpv = w.z.session.curpv ∧ w'.z.cent.toMceup = remember w.z.cent.toMceup (told u) := by
  obtain ⟨w₁, w₂, hdelivered⟩ := plyrstat_delivered h.boundary hrest
  obtain ⟨w₀, hcloop, hread⟩ := hdelivered.call
  obtain ⟨s, hfetched, hb, hw, hpv⟩ := hdelivered.fetched
  obtain ⟨buf, rfl⟩ : ∃ buf, w₂ = { w.withSession s with inbuf := buf, stdin := ⟨rest, w.stdin.eof⟩ } := ⟨_, hfetched⟩
  have hread' : Partakes { w.withSession s with inbuf := buf, stdin := ⟨rest, w.stdin.eof⟩ } :=
    ⟨hb, ⟨hw ▸ h.idle.1, hw ▸ h.idle.2⟩, h.level, h.flg⟩
  obtain ⟨w', hr, hpartakes, hctr', hstdin, hout, hcurpv, hcent⟩ := ctactrstat_partakes hread' hctr hread
  refine ⟨w', hdelivered.goes.next (by decide) (hcloop.trans hr), hpartakes, hctr', ?_, ?_, hcurpv.trans hpv, hcent⟩
  · rw [hstdin]
  · rw [← hpv]
    exact hout

theorem goes_states {us : List Mceup} (h : Partakes w) (hctr : w.ctr + us.length ≤ 512)
    (hrest : w.stdin.rest = us.flatMap Mceup.bytes ++ rest) :
    ∃ w', Goes (.evtno, w) (3 * us.length) (.evtno, w') ∧ w'.stdin.rest = rest ∧
      w'.stdout = w.stdout ++ (wire w.z.session.curpv (answers w.z.session.curpv w.z.cent.toMceup us)).flatten := by
  induction us generalizing w with
  | nil => exact ⟨w, Goes.refl _, hrest, (List.append_nil _).symm⟩
  | cons u us ih =>
    rw [List.flatMap_cons, List.append_assoc] at hrest
    rw [List.length_cons] at hctr
    obtain ⟨w₁, hgoes, hpartakes, hctr', hrest', hout, hcurpv, hcent⟩ := goes_state h (by omega) hrest
    obtain ⟨w', hgoes', hrest'', hout'⟩ := ih hpartakes (by rw [hctr']; omega) hrest'
    refine ⟨w', ?_, hrest'', ?_⟩
    · rw [List.length_cons, Nat.mul_succ, Nat.add_comm]
      exact hgoes.trans hgoes'
    · rw [hout', hout, hcurpv, hcent, answers, wire_append _ (_ ++ _), List.flatten_append, List.append_assoc]

end Runs

/-! ### From a join on -/

/-- What was given away since `w` is a sequence of packets that puts the clone at `c`. -/
def Sees (w w' : World) (c : Mcvec) : Prop :=
  ∃ ps : List (List UInt8), (∀ p ∈ ps, p ∈ packets w.z.session.curpv) ∧ w'.stdout = w.stdout ++ ps.flatten ∧
    ps.foldl (see w.z.session.curpv) none = some c

/-- After each of the states `us` of the player, which are read from `w₁` on, the clone is at the opposite side. -/
def Mirrored (w w₁ : World) (us : List Mceup) (rest : List UInt8) : Prop :=
  ∀ k (hk : k < us.length), ∃ w', Goes (.evtno, w₁) (3 * (k + 1)) (.evtno, w') ∧
    w'.stdin.rest = (us.drop (k + 1)).flatMap Mceup.bytes ++ rest ∧ Sees w w' (opposite us[k].epos)

section Joins
variable {w w₀ w₁ w' : World} {c : Mcvec} {es : List Sent}

theorem foldl_see {v : Int} {c : Option Mcvec} (hes : ∀ e ∈ es, Exact v e) : (wire v es).foldl (see v) c = es.foldl sees c := by
  induction es generalizing c with
  | nil => rfl
  | cons e es ih =>
    obtain ⟨he, hes⟩ := List.forall_mem_cons.mp hes
    have hwire : wire v (e :: es) = packet v e.1 e.2 :: wire v es := rfl
    rw [hwire, List.foldl_cons, List.foldl_cons, see_packet he, ih hes]

theorem sees_iff (hes : ∀ e ∈ es, Exact w.z.session.curpv e)
    (hout : w'.stdout = w.stdout ++ (wire w.z.session.curpv es).flatten) : Sees w w' c ↔ es.foldl sees none = some c := by
  have hwords : ∀ p ∈ wire w.z.session.curpv es, p ∈ packets w.z.session.curpv :=
    wire_packets fun e he => ⟨(hes e he).1, (hes e he).2.1⟩
  rw [← foldl_see hes]
  constructor
  · rintro ⟨ps, hps, hflat, hc⟩
    have hsame : ps = wire w.z.session.curpv es :=
      Code.words_uniquelyDecodable _ _ _ hps hwords (List.append_cancel_left (hflat.symm.trans hout))
    exact hsame ▸ hc
  · intro hc
    exact ⟨_, hwords, hout, hc⟩

theorem joins_exact (v : Int) (l : Lvl) : ∀ e ∈ joins v l, Exact v e := by
  intro e he
  have hsend := joins_sendable v l e he
  refine ⟨hsend.1, hsend.2, fun u hu => ?_⟩
  simp only [joins, ping, List.mem_append, List.mem_cons, List.not_mem_nil, or_false, List.mem_map] at he
  rcases he with ((rfl | rfl) | ⟨j, -, rfl⟩) | rfl | rfl | rfl | rfl <;> rcases hu with hu | hu <;> cases hu

/-- A join puts the clone where the player starts. -/
theorem joins_sees (v : Int) (l : Lvl) : (joins v l).foldl sees none = some ⟨512, 512, 512⟩ := by
  rw [joins, List.foldl_append, List.foldl_append, List.foldl_map]
  have hchunks : (List.range l.chunks).foldl
      (fun c (j : ℕ) => sees c (.ldata, .cho ⟨some (l.cdat.incr (1024 * j)), l.clen j, l.clen j, 0⟩)) none = none :=
    List.foldl_fixed' (fun _ => rfl) _
  exact congrArg (List.foldl sees · _) hchunks

theorem start_opposite {p : Mcvec} : ⟨512, 512, 512⟩ = opposite p ↔ p = ⟨0, 512, 0⟩ := by
  obtain ⟨x, y, z⟩ := p
  simp only [opposite, Mcvec.mk.injEq]
  grind

/-- The state after a join, with the number of states that were answered since: `ctactrstat` counts the one that it
    answered by a join. -/
theorem joined_partakes (hb : AtBoundary w.z.session) (hidle : w.z.session.Idle) (hlevel : w.z.lcur.filelen ≤ 32767)
    (hjoin : initseq w = some (0, w₀)) (hnext : w₁ = w₀ ∨ w₁ = w₀.withCtr (w₀.ctr + 1)) :
    Partakes w₁ ∧ w₁.ctr ≤ 1 ∧ w₁.stdin = w.stdin ∧ w₁.z.cent = w.z.cent ∧ w₁.z.session.curpv = w.z.session.curpv ∧
      w₁.stdout = w.stdout ++ (wire w.z.session.curpv (joins w.z.session.curpv w.z.lcur)).flatten := by
  have henam : w.z.cent.enam ≠ none := by
    intro h
    rw [initseq_none h] at hjoin
    cases hjoin
  obtain ⟨w₂, hr, hspoke⟩ := initseq_says hidle henam hlevel
  obtain rfl : w₀ = w₂ := (Prod.mk.inj (Option.some.inj (hjoin.symm.trans hr))).2
  have hctr : w₀.ctr = 0 := hspoke.ctr
  have hpartakes : Partakes w₀ := by
    refine ⟨?_, hspoke.idle, ?_, ?_⟩
    · rw [hspoke.frame]
      exact ⟨hb.evt, hb.type, hb.pv⟩
    · rw [hspoke.lcur]
      exact hlevel
    · rw [hspoke.frame]
      exact (by decide : (1 : UInt8) ≠ 0)
  have hstdin : w₀.stdin = w.stdin := by
    rw [hspoke.frame]
    rfl
  rcases hnext with rfl | rfl
  · exact ⟨hpartakes, by omega, hstdin, hspoke.cent, hspoke.curpv, hspoke.out⟩
  · refine ⟨⟨hpartakes.boundary, hpartakes.idle, hpartakes.level, hpartakes.flg⟩, ?_, hstdin, hspoke.cent, hspoke.curpv,
      hspoke.out⟩
    show w₀.ctr + 1 ≤ 1
    omega

section States
variable {us : List Mceup} {rest : List UInt8} (hb : AtBoundary w.z.session) (hidle : w.z.session.Idle)
  (hlevel : w.z.lcur.filelen ≤ 32767) (hjoin : initseq w = some (0, w₀)) (hnext : w₁ = w₀ ∨ w₁ = w₀.withCtr (w₀.ctr + 1))
  (hlen : us.length < 512) (hrest : w.stdin.rest = us.flatMap Mceup.bytes ++ rest)
include hb hidle hlevel hjoin hnext hlen hrest

/-- Where the clone is seen is told by the answers. -/
theorem seen_iff {k : ℕ} (hk : k < us.length) {c : Mcvec} :
    (∃ w', Goes (.evtno, w₁) (3 * (k + 1)) (.evtno, w') ∧
      w'.stdin.rest = (us.drop (k + 1)).flatMap Mceup.bytes ++ rest ∧ Sees w w' c) ↔
    (answers w.z.session.curpv w.z.cent.toMceup (us.take (k + 1))).foldl sees (some ⟨512, 512, 512⟩) = some c := by
  obtain ⟨hpartakes, hctr, hstdin, hcent, hcurpv, hout⟩ := joined_partakes hb hidle hlevel hjoin hnext
  have hlen' : (us.take (k + 1)).length = k + 1 := by
    rw [List.length_take]
    omega
  have hsplit : w₁.stdin.rest = (us.take (k + 1)).flatMap Mceup.bytes ++ ((us.drop (k + 1)).flatMap Mceup.bytes ++ rest) := by
    rw [hstdin, hrest, ← List.append_assoc, ← List.flatMap_append, List.take_append_drop]
  obtain ⟨w', hgoes, hrest', hout'⟩ := goes_states hpartakes (by omega) hsplit
  rw [hlen'] at hgoes
  rw [hout, hcurpv, hcent, List.append_assoc, ← List.flatten_append, ← wire_append] at hout'
  have hexact : ∀ e ∈ joins w.z.session.curpv w.z.lcur ++ answers w.z.session.curpv w.z.cent.toMceup (us.take (k + 1)),
      Exact w.z.session.curpv e := fun e he =>
    (List.mem_append.mp he).elim (joins_exact _ _ e) (answers_exact _ _ e)
  have hsees := sees_iff (c := c) hexact hout'
  rw [List.foldl_append, joins_sees] at hsees
  rw [← hsees]
  constructor
  · rintro ⟨w'', hgoes', -, h⟩
    obtain rfl : w'' = w' := (Prod.mk.inj (hgoes'.det hgoes)).2
    exact h
  · intro h
    exact ⟨w', hgoes, hrest', h⟩

/-- The clone is at the opposite side after every state exactly if the position that is remembered at the join is opposite
    to the start, or the first state is answered with a state. -/
theorem mirrored_iff : Mirrored w w₁ us rest ↔
    ∀ u ∈ us.head?, w.z.cent.epos = ⟨0, 512, 0⟩ ∨ Resets w.z.session.curpv w.z.cent.toMceup (told u) := by
  rw [← start_opposite, ← answers_sees]
  exact forall_congr' fun k => forall_congr' fun hk => seen_iff hb hidle hlevel hjoin hnext hlen hrest hk

end States

/-- A client of version 7 with the name "A" that has not told its state, and tells `us`. -/
def newcomer (us : List Mceup) : World :=
  { z := { session := fresh 7, cent := { enam := some fun i => if i = 0 then 65 else 0, enln := 1 }, lcur := ⟨fun _ => 0, 0, {}⟩ },
    stdin := ⟨us.flatMap Mceup.bytes ++ [], false⟩ }

theorem newcomer_joins (us : List Mceup) : ∃ w₀, initseq (newcomer us) = some (0, w₀) := by
  obtain ⟨w₀, hr, -⟩ := initseq_says (w := newcomer us) ⟨rfl, rfl⟩ nofun (by decide : (0 : Int) ≤ 32767)
  exact ⟨w₀, hr⟩

/-- Where the player starts, the first state is answered with a state. -/
theorem mirrored_iff_start : ∃ (us : List Mceup) (w₀ : World), us ≠ [] ∧ initseq (newcomer us) = some (0, w₀) ∧
    Mirrored (newcomer us) w₀ us [] := by
  obtain ⟨w₀, hjoin⟩ := newcomer_joins [⟨-1, ⟨512, 492, 512⟩, ⟨224, 64⟩⟩]
  refine ⟨_, w₀, by simp, hjoin, ?_⟩
  refine (mirrored_iff ⟨rfl, rfl, by decide⟩ ⟨rfl, rfl⟩ (by decide : (0 : Int) ≤ 32767) hjoin (Or.inl rfl) (by decide) rfl).mpr ?_
  intro u hu
  obtain rfl := Option.mem_some_iff.mp hu
  exact Or.inr (Or.inl (by decide))

/-- A first state at ⟨1, 0, 0⟩ is a small step from the origin, where the clone never was. -/
theorem clone_strays : ∃ (us : List Mceup) (w₀ : World), us.length = 1 ∧ initseq (newcomer us) = some (0, w₀) ∧
    ¬Mirrored (newcomer us) w₀ us [] := by
  obtain ⟨w₀, hjoin⟩ := newcomer_joins [⟨-1, ⟨1, 0, 0⟩, {}⟩]
  refine ⟨_, w₀, rfl, hjoin, fun hall => ?_⟩
  have hseen := (seen_iff ⟨rfl, rfl, by decide⟩ ⟨rfl, rfl⟩ (by decide : (0 : Int) ≤ 32767) hjoin (Or.inl rfl) (by decide) rfl
    Nat.zero_lt_one).mp (hall 0 Nat.zero_lt_one)
  revert hseen
  decide

end Joins

end ClassicX
