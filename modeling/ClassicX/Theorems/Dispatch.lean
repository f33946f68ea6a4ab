import ClassicX.Theorems.Sessions

/-! Where the writer dispatches on `w.evt` and `w.type`. Every turn of an event loop is taken at a field of
the event in progress, also the turn after an error, so that no call goes through a null entry of a table
as long as every event is started with room for its number. -/

namespace ClassicX
open Turns (Turn visits visits_inv)

/-! ### Dispatches -/

/-- The sessions in which a loop over the fields takes its turns. -/
def fieldVisits {π : Type} (field : Mcx → Int → π → Option (Turn (Mcx × π) UInt8)) (ctx : Mcx) (qty : Int) (src : π) :
    List Mcx :=
  (visits (fun s qty => field s.1 qty s.2) (fun s => s.1.w.evt ≠ .nothing) 8192 (ctx, src) qty).map (·.1.1)

/-- The sessions in which a call of `mcswr` dispatches on `w.type`, through a table or a `switch`. -/
def dispatches (s : Mcx) (q : Int) (src : Src) : List Mcx :=
  match s.w.evt, src with
  | .pgreeting, .gto g => fieldVisits (fun ctx qty src => do some ((← pgw ctx.w.type) ctx qty src)) s q g
  | .ldata, .cho c => fieldVisits (fun ctx qty arg => do some ((← ldw ctx.w.type) ctx qty arg.cut)) s q c
  | .bupdate, .bup u => fieldVisits (fun ctx qty src => do some ((← buw ctx.w.type) ctx qty src)) s q u
  | .enew, .eno e => fieldVisits (fun ctx qty src => do some ((← enw ctx.w.type) ctx qty src)) s q e
  | .estate, .eup e => fieldVisits seestw.turn s q e
  | .ediff, .eup e => fieldVisits seedw.turn s q e
  | .eslide, .eup e => fieldVisits seesdw.turn s q e
  | .ehead, .eup e => fieldVisits seehw.turn s q e
  | .cmsg, .mso m => fieldVisits secmw.turn s q m
  | _, _ => []

/-- `w.type` selects a writer: an entry of the table that is not null, or a case of the `switch`. -/
def Selects (s : Mcx) : Prop :=
  match s.w.evt with
  | .pgreeting => (pgw s.w.type).isSome
  | .ldata => (ldw s.w.type).isSome
  | .bupdate => (buw s.w.type).isSome
  | .enew => (enw s.w.type).isSome
  | .estate | .eslide | .ehead | .cmsg => s.w.type = 1 ∨ s.w.type = 2
  | .ediff => s.w.type = 1 ∨ s.w.type = 2 ∨ s.w.type = 3
  | _ => True

/-- The kind of the field that `w.type` numbers. -/
def Mcx.field (s : Mcx) : Option (Option Int) := (sizes s.curpv s.w.evt)[(s.w.type - 1).toNat]?

/-- `w.type` numbers a field of the event in progress, and `w.rem` is what remains of it. -/
structure Ranged (s : Mcx) : Prop where
  type : 1 ≤ s.w.type ∧ s.w.type ≤ (sizes s.curpv s.w.evt).length
  str : s.field = some (some MCSTRLEN) → 1 ≤ s.w.rem ∧ s.w.rem ≤ 64
  arr : s.field = some (some MCARRAYLEN) → 1 ≤ s.w.rem ∧ s.w.rem ≤ 1024

theorem Placed.ranged {s : Mcx} (hp : Placed s) (hs : sizes s.curpv s.w.evt ≠ []) : Ranged s := by
  rcases hp with hnil | ⟨i, htype, k, hk, hrem⟩
  · exact absurd hnil hs
  have hlt := (List.getElem?_eq_some_iff.mp hk).1
  have hfield : s.field = some k := by
    rw [Mcx.field, htype, add_sub_cancel_right, Int.toNat_natCast, hk]
  exact {
    type := by omega
    str := fun h => hrem 64 (Option.some.inj (hfield.symm.trans h))
    arr := fun h => hrem 1024 (Option.some.inj (hfield.symm.trans h)) }

theorem Ranged.selects {s : Mcx} (h : Ranged s) : Selects s := by
  obtain ⟨hlo, hhi⟩ := h.type
  unfold Selects
  cases he : s.w.evt <;> simp only [he, sizes, List.length_cons, List.length_nil] at hhi ⊢
  case pgreeting =>
    have := sizes_length_le s.curpv .pgreeting
    simp only [sizes, List.length_cons] at this
    rcases (by omega : s.w.type = 1 ∨ s.w.type = 2 ∨ s.w.type = 3 ∨ s.w.type = 4) with ht | ht | ht | ht
    all_goals simp [ht, pgw]
  case ldata =>
    rcases (by omega : s.w.type = 1 ∨ s.w.type = 2 ∨ s.w.type = 3) with ht | ht | ht
    all_goals simp [ht, ldw]
  case bupdate =>
    rcases (by omega : s.w.type = 1 ∨ s.w.type = 2) with ht | ht
    all_goals simp [ht, buw]
  case enew =>
    rcases (by omega : s.w.type = 1 ∨ s.w.type = 2 ∨ s.w.type = 3) with ht | ht | ht
    all_goals simp [ht, enw]
  all_goals omega

/-! ### Turns of a loop -/

section
variable {π : Type} {e : Mcsevt} {pay : π → Src} {cut : π → π} {field : Mcx → Int → π → Option (Turn (Mcx × π) UInt8)} {s₀ : Mcx}

/-- Every turn at a field is a step of the record, or answers with an error and changes nothing. -/
def Turning (e : Mcsevt) (pay : π → Src) (cut : π → π) (field : Mcx → Int → π → Option (Turn (Mcx × π) UInt8)) (s₀ : Mcx) :
    Prop :=
  ∀ s x q, 0 ≤ q → At e s₀ s → s.w.evt = e → Placed s → (pay x).NonNeg →
    ∃ t, field s q x = some t ∧ (Moves e pay s₀ q (s, cut x) t ∨ t = ⟨(s, x), q, MCENOTENOUGH, []⟩)

theorem Steady.turning (h : Steady e pay cut field s₀) (he : e ≠ .bupdate ∧ e ≠ .enew ∧ e ≠ .estate) :
    Turning e pay cut field s₀ := by
  intro s x q hq hat hevt hp hnn
  obtain ⟨t, ht, hm, -⟩ := h s x q hq hat hevt hp hnn (hat.roomy he)
  exact ⟨t, ht, Or.inl hm⟩

/-- A turn of a loop that goes on stands at a field of the event again. -/
theorem Turning.next (h : Turning e pay cut field s₀) {s : Mcx} {x : π} {q : Int} {t : Turn (Mcx × π) UInt8}
    (hq : 0 ≤ q) (hat : At e s₀ s) (he : s.w.evt = e) (hp : Placed s) (hnn : (pay x).NonNeg) (ht : field s q x = some t)
    (hmore : t.next.1.w.evt ≠ .nothing) :
    0 ≤ t.room - t.ret ∧ At e s₀ t.next.1 ∧ t.next.1.w.evt = e ∧ Placed t.next.1 ∧ (pay t.next.2).NonNeg := by
  obtain ⟨t', ht', hm | rfl⟩ := h s x q hq hat he hp hnn
  · obtain rfl := Option.some.inj (ht.symm.trans ht')
    have hroom := hm.fits
    rcases hm.pos.pos with ⟨he', hp'⟩ | ⟨he', -⟩
    · exact ⟨by omega, hm.pos, he', hp', hm.nonneg⟩
    · exact absurd he' hmore
  · -- The error has made room.
    obtain rfl := Option.some.inj (ht.symm.trans ht')
    refine ⟨?_, hat, he, hp, hnn⟩
    simp only [MCENOTENOUGH, Mcerr.code]
    omega

theorem fieldVisits_ranged (h : Turning e pay cut field s₀) (hs : ∀ v, sizes v e ≠ []) {x : π} {q : Int}
    (hq : 0 ≤ q) (hp : Placed s₀) (he : s₀.w.evt = e) (hrem : Remains s₀.w.rem) (hnn : (pay x).NonNeg) :
    ∀ s ∈ fieldVisits field s₀ q x, s.w.evt = e ∧ s.curpv = s₀.curpv ∧ Ranged s := by
  intro s hmem
  obtain ⟨v, hv, rfl⟩ := List.mem_map.mp hmem
  obtain ⟨-, hat, he', hp', -⟩ := visits_inv
    (fun s q => 0 ≤ q ∧ At e s₀ s.1 ∧ s.1.w.evt = e ∧ Placed s.1 ∧ (pay s.2).NonNeg)
    (fun s q t ⟨hq, hat, he, hp, hnn⟩ ht hmore => h.next hq hat he hp hnn ht (of_decide_eq_true hmore))
    ⟨hq, he ▸ At.refl hp hrem, he, hp, hnn⟩ v hv
  refine ⟨he', ?_, hp'.ranged (by rw [he']; exact hs _)⟩
  rw [hat.frame]

end

theorem sebuw_turning {s₀ : Mcx} :
    Turning .bupdate .bup id (fun ctx qty src => do some ((← buw ctx.w.type) ctx qty src)) s₀ := by
  intro s x q hq hat he hp hnn
  by_cases hfit : s.w.type = 1 → 6 ≤ q
  · obtain ⟨t, ht, hm, -⟩ := sebuw_steady s x q hq hat he hp hnn (by simpa only [Roomy, he] using hfit)
    exact ⟨t, ht, Or.inl hm⟩
  · obtain ⟨htype, hsmall⟩ := Classical.not_imp.mp hfit
    exact ⟨_, buw_short htype (not_le.mp hsmall), Or.inr rfl⟩

theorem seenw_turning {s₀ : Mcx} :
    Turning .enew .eno id (fun ctx qty src => do some ((← enw ctx.w.type) ctx qty src)) s₀ := by
  intro s x q hq hat he hp hnn
  by_cases hfit : s.w.type = 3 → 8 ≤ q
  · obtain ⟨t, ht, hm⟩ := enw_moves (s := (s, x)) hq hp he hat hnn hfit
    exact ⟨t, ht, Or.inl hm⟩
  · obtain ⟨htype, hsmall⟩ := Classical.not_imp.mp hfit
    exact ⟨_, enw_short htype (not_le.mp hsmall), Or.inr rfl⟩

theorem seestw_turning {s₀ : Mcx} : Turning .estate .eup id seestw.turn s₀ := by
  intro s x q hq hat he hp _
  by_cases hfit : s.w.type = 2 → 8 ≤ q
  · obtain ⟨t, ht, hm⟩ := seestw_moves (s := (s, x)) hq hp he hat hfit
    exact ⟨t, ht, Or.inl hm⟩
  · obtain ⟨htype, hsmall⟩ := Classical.not_imp.mp hfit
    exact ⟨_, seestw_short htype (not_le.mp hsmall), Or.inr rfl⟩

/-- Every dispatch of a call on an event in progress finds `w.type` at a field. -/
theorem dispatches_ranged {s : Mcx} {q : Int} {src : Src} (hq : 0 ≤ q) (hp : Placed s) (hrem : Remains s.w.rem)
    (hnn : src.NonNeg) : ∀ s' ∈ dispatches s q src, s'.w.evt = s.w.evt ∧ s'.curpv = s.curpv ∧ Ranged s' := by
  unfold dispatches
  -- The loops are the events with a table or a `switch`; the other calls do not dispatch on `w.type`.
  cases he : s.w.evt <;> cases src <;> (try simp only [List.not_mem_nil, false_imp_iff, implies_true])
  case pgreeting.gto g =>
    exact fieldVisits_ranged (sepgw_steady.turning (by decide)) (fun _ => List.cons_ne_nil _ _) hq hp he hrem hnn
  case ldata.cho c =>
    exact fieldVisits_ranged (seldtw_steady.turning (by decide)) (fun _ => List.cons_ne_nil _ _) hq hp he hrem hnn
  case bupdate.bup u =>
    exact fieldVisits_ranged sebuw_turning (fun _ => List.cons_ne_nil _ _) hq hp he hrem hnn
  case enew.eno x =>
    exact fieldVisits_ranged seenw_turning (fun _ => List.cons_ne_nil _ _) hq hp he hrem hnn
  case estate.eup x =>
    exact fieldVisits_ranged seestw_turning (fun _ => List.cons_ne_nil _ _) hq hp he hrem hnn
  case ediff.eup x =>
    exact fieldVisits_ranged (seedw_steady.turning (by decide)) (fun _ => List.cons_ne_nil _ _) hq hp he hrem hnn
  case eslide.eup x =>
    exact fieldVisits_ranged (seesdw_steady.turning (by decide)) (fun _ => List.cons_ne_nil _ _) hq hp he hrem hnn
  case ehead.eup x =>
    exact fieldVisits_ranged (seehw_steady.turning (by decide)) (fun _ => List.cons_ne_nil _ _) hq hp he hrem hnn
  case cmsg.mso m =>
    exact fieldVisits_ranged (secmw_steady.turning (by decide)) (fun _ => List.cons_ne_nil _ _) hq hp he hrem hnn

/-! ### Runs -/

/-- The sessions that calls of `mcswr` reach from a session that was reset, where each call that starts an
    event has room for its number. -/
inductive Started : Mcx → Prop
  | reset (s₀ : Mcx) {s : Mcx} {pv : Int} : s ∈ (mcreset [s₀] 1 pv).1 → Started s
  | call {s : Mcx} {q : Int} {src : Src} {o : Swr} : Started s → 0 ≤ q → Takes s src → src.NonNeg → ¬Opens s q src →
      mcswr s q src = some o → Started o.ctx

/-- An event in progress stands at one of its fields, and an event without fields at 1. -/
structure Standing (s : Mcx) : Prop where
  rem : Remains s.w.rem
  pos : s.w.evt = .nothing ∨ s.w.evt ≠ .invalid ∧ Placed s ∧ (sizes s.curpv s.w.evt = [] → s.w.type = 1)

/-- A session that is still at the event of `s`, or has ended it. -/
theorem Standing.keep {s s' : Mcx} (hinv : s.w.evt ≠ .invalid) (hs : sizes s.curpv s.w.evt ≠ []) (hframe : s' = { s with w := s'.w })
    (hrem : Remains s'.w.rem) (hpos : s'.w.evt = s.w.evt ∧ Placed s' ∨ s'.w.evt = .nothing) : Standing s' where
  rem := hrem
  pos := by
    rcases hpos with ⟨he, hp⟩ | he
    · refine Or.inr ⟨he ▸ hinv, hp, fun hnil => absurd ?_ hs⟩
      rw [he, hframe] at hnil
      exact hnil
    · exact Or.inl he

theorem startw_standing {s : Mcx} {e : Mcsevt} (he : seencode e ≠ .invalid) :
    Standing { s with w := startw s.curpv e true s.w.rem } := by
  have hp := startw_placed (s := s) he
  rw [startw_eq] at hp ⊢
  refine ⟨remains_str, Or.inr ⟨fun hinv => ?_, hp, fun hnil => ?_⟩⟩
  · obtain rfl : e = .invalid := hinv
    exact he rfl
  · refine if_neg ?_
    rintro ⟨rfl, -⟩
    cases hnil

/-- A call returns, and keeps this unless it starts an event without room. -/
theorem mcswr_standing {s : Mcx} {q : Int} {src : Src} (hq : 0 ≤ q) (hr : Standing s) (htakes : Takes s src) (hnn : src.NonNeg) :
    ∃ o, mcswr s q src = some o ∧ (¬Opens s q src → Standing o.ctx) := by
  by_cases hevt : s.w.evt = .nothing
  · by_cases htype : s.w.type = 0
    · obtain ⟨e, rfl⟩ := htakes.evt ⟨hevt, htype⟩
      by_cases he : seencode e = .invalid
      · exact ⟨_, mcswr_invalid hevt htype he, fun _ => hr⟩
      · refine ⟨_, mcswr_start hevt htype he, fun hopen => ?_⟩
        have hfit : 1 ≤ q := by
          by_contra hfit
          exact hopen ⟨⟨hevt, htype⟩, by omega, e, rfl, he⟩
        rw [if_pos hfit]
        exact startw_standing he
    · exact ⟨_, mcswr_leftover hevt htype, fun _ => ⟨hr.rem, Or.inl hevt⟩⟩
  · obtain ⟨hinv, hp, -⟩ := hr.pos.resolve_left hevt
    by_cases hs : sizes s.curpv s.w.evt = []
    · exact ⟨_, mcswr_eq (sewr_bare hevt hs htakes), fun _ => ⟨hr.rem, Or.inl rfl⟩⟩
    by_cases hroom : Roomy s q src
    · obtain ⟨o, bs, ho, hc⟩ := mcswr_call hq hevt hp hr.rem htakes hnn hroom
      refine ⟨o, ho, fun _ => ?_⟩
      rcases hc.ends with ⟨-, -, he, hp'⟩ | ⟨-, -, he, -⟩ | ⟨-, -, hctx, -⟩ | ⟨-, -, he, -⟩
      · exact .keep hinv hs hc.frame hc.rem (Or.inl ⟨he, hp'⟩)
      · exact .keep hinv hs hc.frame hc.rem (Or.inr he)
      · exact hctx ▸ hr
      · exact .keep hinv hs hc.frame hc.rem (Or.inr he)
    · obtain ⟨o, ho, hl⟩ := mcswr_lost hq hp hr.rem htakes hnn hroom
      refine ⟨o, ho, fun _ => .keep hinv hs hl.pos.frame hl.pos.rem (hl.pos.pos.imp_right And.left)⟩

theorem started_standing {s : Mcx} (h : Started s) : Standing s := by
  induction h with
  | reset s₀ hmem =>
    rw [mcreset_one, List.mem_singleton] at hmem
    subst hmem
    exact ⟨remains_zero, Or.inl rfl⟩
  | call _ hq htakes hnn hopen ho ih =>
    obtain ⟨o', ho', h⟩ := mcswr_standing hq ih htakes hnn
    obtain rfl := Option.some.inj (ho.symm.trans ho')
    exact h hopen

/-- Every dispatch of a call is defined: in the table `sewr`, and on every turn of a loop in the table or
    `switch` of the event. -/
structure Dispatched (s : Mcx) (q : Int) (src : Src) : Prop where
  table : 0 ≤ s.w.evt.code ∧ s.w.evt.code < MCSECOUNT
  returns : ∃ o, mcswr s q src = some o
  inner : ∀ s' ∈ dispatches s q src, s'.w.evt = s.w.evt ∧ s'.curpv = s.curpv ∧ Selects s' ∧ Ranged s'

theorem Mcsevt.code_range {e : Mcsevt} (he : e ≠ .invalid) : 0 ≤ e.code ∧ e.code < MCSECOUNT := by
  cases e
  case invalid => exact absurd rfl he
  all_goals exact ⟨by decide, by decide⟩

/-- Between calls an event in progress with fields stands at one of them and one without fields at 1, and
    every dispatch of every call is defined. -/
theorem mcswr_dispatched (s : Mcx) (hreach : Started s) :
    (s.w.evt ≠ .nothing → if sizes s.curpv s.w.evt = [] then s.w.type = 1 else Ranged s) ∧
      ∀ q src, 0 ≤ q → Takes s src → src.NonNeg → Dispatched s q src := by
  have hr := started_standing hreach
  refine ⟨fun hevt => ?_, fun q src hq htakes hnn => ?_⟩
  · obtain ⟨-, hp, hbare⟩ := hr.pos.resolve_left hevt
    split
    · exact hbare ‹_›
    · exact hp.ranged ‹_›
  · obtain ⟨o, ho, -⟩ := mcswr_standing hq hr htakes hnn
    rcases hr.pos with hevt | ⟨hinv, hp, -⟩
    · refine ⟨by rw [hevt]; decide, ⟨o, ho⟩, fun s' hs' => ?_⟩
      -- No event is in progress, and `senw` does not dispatch.
      simp [dispatches, hevt] at hs'
    · refine ⟨Mcsevt.code_range hinv, ⟨o, ho⟩, fun s' hs' => ?_⟩
      obtain ⟨he, hpv, h⟩ := dispatches_ranged hq hp hr.rem hnn s' hs'
      exact ⟨he, hpv, h.selects, h⟩

theorem started_first (pv : Int) {e : Mcsevt} (he : seencode e ≠ .invalid) :
    Started { fresh pv with w := startw pv e true 0 } := by
  have ho := mcswr_start (s := fresh pv) (q := 1) rfl rfl he
  rw [if_pos le_rfl] at ho
  refine .call (.reset default (List.mem_singleton_self (fresh pv))) (by decide) (Or.inr ⟨e, rfl⟩) trivial ?_ ho
  rintro ⟨-, hzero, -⟩
  cases hzero

/-- A session at the number of a new entity. -/
def entering : Mcx := { fresh 7 with w := ⟨MCSTRLEN, .enew, 1⟩ }

/-- With room for all but the state of the entity the loop goes through its table once more after the error. -/
theorem mcswr_dispatched_entity : Started entering ∧ (dispatches entering 70 (.eno {})).map (·.w.type) = [1, 2, 3, 3] ∧
    Dispatched entering 70 (.eno {}) := by
  have hreach : Started entering := started_first 7 (e := .enew) (by decide)
  have hnn : (Src.eno {}).NonNeg := fun h => nomatch h
  exact ⟨hreach, by decide +kernel, (mcswr_dispatched entering hreach).2 70 (.eno {}) (by decide) trivial hnn⟩

/-- A session after the number of a ping. -/
def pinging : Mcx := { fresh 7 with w := ⟨MCSTRLEN, .ping, 1⟩ }

/-- A ping in progress has its `w.type` at 1, and no field. -/
theorem ping_without_field : Started pinging ∧ pinging.w.evt ≠ .nothing ∧
    ¬(1 ≤ pinging.w.type ∧ pinging.w.type ≤ (sizes pinging.curpv pinging.w.evt).length) :=
  ⟨started_first 7 (e := .ping) (by decide), by decide, by decide⟩

end ClassicX
