import ClassicX.Theorems.Writer

/-! One call of `mcswr`: what it writes of the event in progress, and how it starts an event. -/

namespace ClassicX
open Turns (storesAt)
open Fields (Step)

/-! ### An event in progress -/

/-- How a call ends that wrote `bs`. -/
inductive Ends (s : Mcx) (q : Int) (src : Src) (o : Swr) (bs : List UInt8) : Prop
  | more (hne : bs ≠ []) (hret : o.ret = bs.length) (hevt : o.ctx.w.evt = s.w.evt) (hp : Placed o.ctx)
  | done (hne : bs ≠ []) (hret : o.ret = bs.length) (hevt : o.ctx.w.evt = .nothing) (htype : o.ctx.w.type ≠ 0)
  | stuck (hnil : bs = []) (hret : o.ret = MCENOTENOUGH) (hctx : o.ctx = s) (hsrc : o.src = src.cut)
      (hstep : Step q (fieldsAt s src) [] (fieldsAt s src))
  | empty (hnil : bs = []) (hret : o.ret = 0) (hevt : o.ctx.w.evt = .nothing) (htype : o.ctx.w.type = 0)

/-- What a call leaves behind that found an event in progress. -/
structure Call (s : Mcx) (q : Int) (src : Src) (o : Swr) (bs : List UInt8) : Prop where
  stores : o.stores = storesAt 0 bs
  fits : (bs.length : Int) ≤ q
  left : left s src = bs ++ left o.ctx o.src
  frame : o.ctx = { s with w := o.ctx.w }
  rem : Remains o.ctx.w.rem
  nonneg : o.src.NonNeg
  takes : o.ctx.w.evt = s.w.evt → Takes o.ctx o.src
  ends : Ends s q src o bs

theorem Call.bytes {s : Mcx} {q : Int} {src : Src} {o : Swr} {bs : List UInt8} (h : Call s q src o bs) : o.bytes = bs := by
  rw [Swr.bytes, h.stores, Turns.map_snd_storesAt]

theorem left_nothing {s : Mcx} {src : Src} (h : s.w.evt = .nothing) : left s src = [] := by
  simp [left, fieldsAt, h, layout]

theorem mcswr_eq {s : Mcx} {q : Int} {src : Src} {o : Swr} (h : sewr s.w.evt s q src = some o) :
    mcswr s q src = some { o with ret := if .nothing ≠ o.ctx.w.evt ∧ 0 = o.ret then MCENOTENOUGH else o.ret } := by
  simp only [mcswr, h, Option.bind_eq_bind, Option.bind_some]

/-- Ping and NewLevel have no field: their writer ends them. -/
theorem sewr_bare {s : Mcx} {q : Int} {src : Src} (hevt : s.w.evt ≠ .nothing) (hs : sizes s.curpv s.w.evt = [])
    (htakes : Takes s src) : sewr s.w.evt s q src = some (se0w s src) := by
  cases he : s.w.evt <;> (try simp [sizes, he] at hs) <;> first
    | rfl
    | exact absurd he hevt
    | (simp [Takes, Mcsevt.Casts, he] at htakes)

theorem mcswr_call {s : Mcx} {q : Int} {src : Src} (hq : 0 ≤ q) (hevt : s.w.evt ≠ .nothing) (hp : Placed s)
    (hrem : Remains s.w.rem) (htakes : Takes s src) (hnn : src.NonNeg) (hroom : Roomy s q src) :
    ∃ o bs, mcswr s q src = some o ∧ Call s q src o bs := by
  by_cases hs : sizes s.curpv s.w.evt = []
  · have hlay : ∀ v src, layout v s.w.evt src = [] := by
      intro v src
      cases he : s.w.evt <;> (try simp [sizes, he] at hs) <;> rfl
    refine ⟨_, [], mcswr_eq (sewr_bare hevt hs htakes), ⟨rfl, hq, ?_, rfl, hrem, hnn, fun h => absurd h.symm hevt, ?_⟩⟩
    · have h₁ : left s src = [] := by simp [left, fieldsAt, hlay]
      have h₂ : left (se0w s src).ctx (se0w s src).src = [] := left_nothing rfl
      rw [h₁, h₂]
      rfl
    · exact .empty rfl (by simp [se0w, treset]) rfl rfl
  · obtain ⟨o, bs, ho, hw, hcasts⟩ := sewr_wrote hq hp hrem hs htakes hnn hroom
    have ht : o.ctx.w.evt = s.w.evt → Takes o.ctx o.src := by
      intro h
      rw [Takes, if_neg (h ▸ hevt), h]
      exact hcasts
    refine ⟨_, bs, mcswr_eq ho, ⟨hw.stores, hw.fits, hw.left, hw.pos.frame, hw.pos.rem, hw.nonneg, ht, ?_⟩⟩
    by_cases hnil : bs = []
    · obtain ⟨hctx, hsrc, hstep⟩ := hw.same hnil
      refine .stuck hnil ?_ hctx hsrc hstep
      rcases hw.ret with hret | ⟨-, hret⟩
      · rw [hnil] at hret
        simp [hctx, hret, hevt.symm]
      · simp [hret, MCENOTENOUGH, Mcerr.code]
    · have hret : o.ret = bs.length := hw.ret.resolve_right fun h => hnil h.1
      have hpos : o.ret ≠ 0 := by
        have := List.length_pos_iff.mpr hnil
        omega
      have hif : (if Mcsevt.nothing ≠ o.ctx.w.evt ∧ 0 = o.ret then MCENOTENOUGH else o.ret) = bs.length := by
        rw [if_neg fun h => hpos h.2.symm, hret]
      rcases hw.pos.pos with ⟨he, hp⟩ | ⟨he, ht⟩
      · exact .more hnil hif he hp
      · exact .done hnil hif he ht

/-! ### No event in progress -/

theorem Takes.evt {s : Mcx} {src : Src} (h : Takes s src) (hidle : s.Idle) : ∃ e, src = .evt e := by
  rw [Takes, if_pos hidle.1] at h
  exact h.resolve_left (not_not_intro hidle.2)

/-- After the end of an event the next call answers with 0, and only that call. -/
theorem mcswr_leftover {s : Mcx} {q : Int} {src : Src} (hevt : s.w.evt = .nothing) (htype : s.w.type ≠ 0) :
    mcswr s q src = some ⟨0, { s with w := { s.w with type := 0 } }, src, []⟩ := by
  have : sewr s.w.evt s q src = some ⟨0, { s with w := { s.w with type := 0 } }, src, []⟩ := by
    rw [hevt]
    exact if_pos (Ne.symm htype)
  rw [mcswr_eq this]
  simp [hevt]

/-- The serializer of a session at the start of event `e`. -/
def startw (curpv : Int) (e : Mcsevt) (fits : Bool) (rem : Int) : Mcseri Mcsevt Int :=
  let w : Mcseri Mcsevt Int := if fits then ⟨MCSTRLEN, e, 1⟩ else ⟨rem, e, 0⟩
  if e = .pgreeting ∧ 0 = curpv then tincr w MCSTRLEN else w

theorem mcswr_start {s : Mcx} {q : Int} {e : Mcsevt} (hevt : s.w.evt = .nothing) (htype : s.w.type = 0)
    (he : seencode e ≠ .invalid) :
    mcswr s q (.evt e) = some (if 1 ≤ q then
      ⟨1, { s with w := startw s.curpv e true s.w.rem }, .evt e, storesAt 0 (writeb (Int8.ofInt (seencode e).code))⟩
    else ⟨MCENOTENOUGH, { s with w := startw s.curpv e false s.w.rem }, .evt e, []⟩) := by
  obtain ⟨curpv, pstate, flg, r, rem, evt, type⟩ := s
  obtain rfl : evt = .nothing := hevt
  obtain rfl : type = 0 := htype
  have hne : e ≠ .nothing := fun h => he (by rw [h]; rfl)
  by_cases hg : e = .pgreeting ∧ 0 = curpv
  · obtain ⟨rfl, rfl⟩ := hg
    by_cases hfit : 1 ≤ q
    · simp [mcswr, sewr, senw, seencode, bwtis, fixedw_fits hfit, hfit, startw, Fw.swr, tincr]
    · simp [mcswr, sewr, senw, seencode, bwtis, fixedw_short (not_le.mp hfit), hfit, startw, Fw.swr, tincr]
  · by_cases hfit : 1 ≤ q
    · simp [mcswr, sewr, senw, he.symm, bwtis, fixedw_fits hfit, hfit, startw, Fw.swr, hg, tincr]
    · simp [mcswr, sewr, senw, he.symm, bwtis, fixedw_short (not_le.mp hfit), hfit, startw, Fw.swr, hg, hne.symm]

theorem mcswr_invalid {s : Mcx} {q : Int} {e : Mcsevt} (hevt : s.w.evt = .nothing) (htype : s.w.type = 0)
    (he : seencode e = .invalid) : mcswr s q (.evt e) = some ⟨MCEINVALIDOP, s, .evt e, []⟩ := by
  have : sewr s.w.evt s q (.evt e) = some ⟨MCEINVALIDOP, s, .evt e, []⟩ := by
    rw [hevt]
    simp [sewr, senw, htype, he]
  rw [mcswr_eq this]
  simp [hevt]

/-- The serializer stands at the first field of an event that was just started: a version 0 greeting
    leaves out its version. -/
theorem startw_eq (curpv : Int) (e : Mcsevt) (rem : Int) :
    startw curpv e true rem = ⟨MCSTRLEN, e, if e = .pgreeting ∧ 0 = curpv then 2 else 1⟩ := by
  simp only [startw, if_true, tincr]
  split <;> rfl

theorem startw_placed {s : Mcx} {e : Mcsevt} (he : seencode e ≠ .invalid) :
    Placed { s with w := startw s.curpv e true s.w.rem } := by
  have h64 : ∀ n : Int, some MCSTRLEN = some n → 1 ≤ MCSTRLEN ∧ MCSTRLEN ≤ n := by
    intro n h
    obtain rfl := Option.some.inj h
    exact ⟨by decide, le_rfl⟩
  rw [startw_eq]
  by_cases hg : e = .pgreeting ∧ 0 = s.curpv
  · rw [if_pos hg]
    obtain ⟨rfl, h0⟩ := hg
    exact Or.inr ⟨1, rfl, some MCSTRLEN, by simp [sizes], h64⟩
  · rw [if_neg hg]
    cases e
    case invalid | nothing => exact absurd rfl he
    case ping | lnew => exact Or.inl rfl
    case pbye => exact Or.inr ⟨0, rfl, some MCSTRLEN, rfl, h64⟩
    all_goals exact placed_fixed (i := 0) rfl rfl

/-- The packet of an event is its number and what is left to write after that. -/
theorem encode_eq {s : Mcx} {e : Mcsevt} {src : Src} :
    encode s.curpv e src =
      writeb (Int8.ofInt (seencode e).code) ++ left { s with w := startw s.curpv e true s.w.rem } src := by
  rw [encode, startw_eq]
  congr 1
  unfold left fieldsAt
  by_cases hg : e = .pgreeting ∧ 0 = s.curpv
  · simp only [hg, and_self, if_true]
    cases src <;> simp [layout, strField, cutField]
  · simp only [if_neg hg, Int.toNat_one, Nat.sub_self, List.drop_zero]
    cases e <;> cases src <;> rfl

end ClassicX
