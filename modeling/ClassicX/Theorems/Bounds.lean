import ClassicX.Theorems.Sessions

/-! What a caller of `mcswr` may rely on, at every reachable session: when a call keeps to its buffer, and
when `MCENOTENOUGH` leaves the session as it was. -/

namespace ClassicX
open Turns (storesAt mem_storesAt)

/-! ### Bounds -/

/-- The call stores only in its buffer. It answers with the count of the bytes it stored, from the start of
    the buffer on, or with an error and no byte stored. -/
def Bounded (s : Mcx) (q : Int) (src : Src) : Prop :=
  ∃ o, mcswr s q src = some o ∧ (∀ p ∈ o.stores, 0 ≤ p.1 ∧ p.1 < q) ∧
    (o.Counts q ∨ ∃ m : Mcerr, o.ret = m.code ∧ o.stores = [])

/-- A call keeps to its buffer exactly when it fits. -/
theorem mcswr_bounded_iff (s : Mcx) (q : Int) (src : Src) (hreach : Reachable s) (hq : 0 ≤ q) (htakes : Takes s src)
    (hnn : src.NonNeg) : Bounded s q src ↔ Fits s q src := by
  have hs := reachable_sound hreach
  constructor
  · rintro ⟨o, ho, hin, -⟩
    by_contra hfits
    rcases mcswr_not_fits hq hs htakes hnn hfits with hnone | ⟨o', ho', h⟩
    · rw [ho] at hnone
      cases hnone
    · obtain rfl := Option.some.inj (ho.symm.trans ho')
      obtain ⟨p, hp, hneg⟩ := h.store
      have := hin p hp
      omega
  · intro hfits
    obtain ⟨o, ho, h⟩ := mcswr_tidy hq hs htakes hnn hfits
    refine ⟨o, ho, fun p hp => ?_, h.counts⟩
    rcases h.counts with ⟨hstores, hret, hle⟩ | ⟨-, -, hnil⟩
    · rw [hstores] at hp
      have := mem_storesAt (i := p.1) (b := p.2) hp
      omega
    · rw [hnil] at hp
      cases hp

/-- The number of a block update was written. -/
def numbered : Mcx := { fresh 7 with w := ⟨MCSTRLEN, .bupdate, 1⟩ }

theorem reachable_numbered : Reachable numbered :=
  Reachable.call (q := 16) (reachable_fresh 7) (by decide) (Or.inr ⟨.bupdate, rfl⟩) trivial rfl

/-- The rest of a block update keeps to a buffer of 7 bytes, and not to one of 3. -/
theorem mcswr_bounded_numbered : Bounded numbered 7 (.bup {}) ∧ ¬Bounded numbered 3 (.bup {}) := by
  have hnum : ¬Unnumbered numbered := fun h => absurd h.1 (by decide)
  have hroom : Roomy numbered 7 (.bup {}) := fun _ => by decide
  refine ⟨(mcswr_bounded_iff numbered 7 (.bup {}) reachable_numbered (by decide) trivial trivial).mpr ⟨hroom, hnum⟩, fun h => ?_⟩
  have hfits := (mcswr_bounded_iff numbered 3 (.bup {}) reachable_numbered (by decide) trivial trivial).mp h
  exact absurd (hfits.1 rfl) (by decide)

/-- A block update that has 3 bytes for its position answers with -116 and stores from `dst[-123]` on. -/
theorem mcswr_strays :
    Reachable numbered ∧ Takes numbered (.bup {}) ∧ ¬Bounded numbered 3 (.bup {}) ∧
      ∃ o, mcswr numbered 3 (.bup {}) = some o ∧ o.ret = -116 ∧ o.stores.map Prod.fst = [-123, -122, -121, -120, -119, -118, -117] := by
  have hrun : ∃ o, mcswr numbered 3 (.bup {}) = some o ∧ o.ret = -116 ∧
      o.stores.map Prod.fst = [-123, -122, -121, -120, -119, -118, -117] := ⟨_, rfl, rfl, rfl⟩
  refine ⟨?_, trivial, ?_, hrun⟩
  · exact reachable_numbered
  · rintro ⟨o, ho, hin, -⟩
    obtain ⟨o', ho', -, hfst⟩ := hrun
    obtain rfl := Option.some.inj (ho.symm.trans ho')
    obtain ⟨p, hp, hneg⟩ : ∃ p ∈ o.stores, p.1 = -123 := List.mem_map.mp (by rw [hfst]; decide)
    have := hin p hp
    omega

/-! ### Atomicity -/

/-- `MCENOTENOUGH` leaves no trace: nothing was stored, the session is as before, and the same call with
    any other buffer gives what it would have given. -/
def Atomic (s : Mcx) (q : Int) (src : Src) : Prop :=
  ∀ o, mcswr s q src = some o → o.ret = MCENOTENOUGH →
    o.stores = [] ∧ o.ctx = s ∧ ∀ q', mcswr o.ctx q' o.src = mcswr s q' src

theorem cut_cut (c : Mccho) : c.cut.cut = c.cut := by
  by_cases h : MCARRAYLEN < c.clen <;> simp [Mccho.cut, h]

/-- The length field of a chunk may be cut before the call. -/
theorem mcswr_cut {s : Mcx} {q : Int} {c : Mccho} (he : s.w.evt = .ldata) : mcswr s q (.cho c.cut) = mcswr s q (.cho c) := by
  have : sewr s.w.evt s q (.cho c.cut) = sewr s.w.evt s q (.cho c) := by
    simp only [he, sewr, seldtw]
    refine fieldLoop_congr ?_
    simp only [cut_cut]
  simp only [mcswr, this]

/-- `MCENOTENOUGH` leaves no trace unless the call starts an event without room for its number. -/
theorem mcswr_atomic_iff (s : Mcx) (q : Int) (src : Src) (hreach : Reachable s) (hq : 0 ≤ q) (htakes : Takes s src)
    (hnn : src.NonNeg) : Atomic s q src ↔ ¬Opens s q src := by
  have hs := reachable_sound hreach
  constructor
  · rintro h ⟨hidle, rfl, e, rfl, he⟩
    obtain ⟨-, hctx, -⟩ := h _ (mcswr_start hidle.1 hidle.2 he) rfl
    have hevt : (startw s.curpv e false s.w.rem).evt = .nothing := by
      have := congrArg (fun s => s.w.evt) hctx
      simpa [hidle.1] using this
    have : (startw s.curpv e false s.w.rem).evt = e := by
      simp only [startw]
      split <;> rfl
    rw [this] at hevt
    exact he (by rw [hevt]; rfl)
  · intro hopen o ho hret
    by_cases hfits : Fits s q src
    · obtain ⟨o', ho', h⟩ := mcswr_tidy hq hs htakes hnn hfits
      obtain rfl := Option.some.inj (ho.symm.trans ho')
      obtain ⟨hstores, hctx, hsrc⟩ := h.same hret hopen
      refine ⟨hstores, hctx, fun q' => ?_⟩
      rw [hctx, hsrc]
      cases src with
      | cho c =>
        by_cases he : s.w.evt = .ldata
        · exact mcswr_cut he
        · -- The events that take any payload answer with 0.
          have hzero : o.ret = 0 := by
            cases hevt : s.w.evt <;> simp [Takes, Mcsevt.Casts, hevt] at htakes <;> first | exact absurd hevt he | skip
            case nothing =>
              rw [mcswr_leftover hevt htakes] at ho
              obtain rfl := Option.some.inj ho
              rfl
            all_goals
              simp [mcswr, sewr, hevt, se0w, treset] at ho
              rw [← ho]
          rw [hzero] at hret
          exact absurd hret (by decide)
      | _ => rfl
    · rcases mcswr_not_fits hq hs htakes hnn hfits with hnone | ⟨o', ho', h⟩
      · rw [ho] at hnone
        cases hnone
      · obtain rfl := Option.some.inj (ho.symm.trans ho')
        have := h.above
        simp only [MCENOTENOUGH, Mcerr.code] at hret
        omega

/-- The second call of a chat message, without room. -/
theorem mcswr_atomic_chat : ∃ s, Reachable s ∧ s.w.evt = .cmsg ∧
    (Atomic s 0 (.mso ⟨none, 0, -1⟩) ↔ ¬Opens s 0 (.mso ⟨none, 0, -1⟩)) := by
  have hreach : Reachable { fresh 7 with w := ⟨MCSTRLEN, .cmsg, 1⟩ } :=
    Reachable.call (q := 16) (reachable_fresh 7) (by decide)
      (Or.inr ⟨.cmsg, rfl⟩) trivial rfl
  exact ⟨_, hreach, rfl, mcswr_atomic_iff _ 0 (.mso ⟨none, 0, -1⟩) hreach le_rfl trivial (fun _ => le_rfl)⟩

/-- A block update that is started with an empty buffer is in progress after the error, without its number,
    and the next call goes through the null entry of its table. -/
theorem mcswr_not_atomic : Reachable (fresh 7) ∧ ¬Atomic (fresh 7) 0 (.evt .bupdate) ∧
    ∃ o, mcswr (fresh 7) 0 (.evt .bupdate) = some o ∧ o.ret = MCENOTENOUGH ∧ o.ctx.w = ⟨0, .bupdate, 0⟩ ∧
      mcswr o.ctx 16 (.bup {}) = none := by
  refine ⟨reachable_fresh 7, fun h => ?_, _, rfl, rfl, rfl, rfl⟩
  obtain ⟨-, hctx, -⟩ := h _ rfl rfl
  exact absurd (congrArg (fun s => s.w.evt) hctx) (by decide)

end ClassicX
