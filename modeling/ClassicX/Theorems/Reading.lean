import Mathlib.Tactic.SplitIfs
import ClassicX.Mccp.Reader

/-! Calls of `mcsread` keep the state of the reader: each type occurs with the event it belongs to, and a
string type has something that remains. The calls through `ctrd` and `ctup` are then defined. -/

namespace ClassicX

/-! ### The state of the reader -/

/-- The event a type belongs to. -/
def Owns : Mccevt → Mcctyp → Prop
  | .nothing, .evtno => True
  | .greeting, .version => True
  | .greeting, .name => True
  | .greeting, .pass => True
  | .greeting, .cflgs => True
  | .blkedit, .blkch => True
  | .plyrstat, .actrno => True
  | .plyrstat, .actrstat => True
  | .chatmsg, .actrno => True
  | .chatmsg, .msg => True
  | _, _ => False

/-- The types whose reader may stop in the middle of a string. -/
def Strings (t : Mcctyp) : Prop := t = .name ∨ t = .pass ∨ t = .msg

/-- The types whose reader stores at `dst` without asking whether there is one. -/
def Stores (t : Mcctyp) : Prop := t = .evtno ∨ t = .blkch ∨ t = .actrstat

/-- The state of a reader between two calls. -/
structure Keeps (r : Mcseri Mccevt Mcctyp) : Prop where
  owns : Owns r.evt r.type
  rem : Strings r.type → 1 ≤ r.rem ∧ r.rem ≤ MCSTRLEN

/-- The sessions that calls of `mcsread` reach from a session that was reset, as long as no call returned
    `MCCTINVALID`. -/
inductive Reads : Mcx → Prop
  | reset (s₀ : Mcx) {s : Mcx} {pv : Int} : s ∈ (mcreset [s₀] 1 pv).1 → Reads s
  | read (src : Ptr) (qty : Int) (dst : Bool) {s s' : Mcx} {t : Mcctyp} {v : Option Val} : Reads s → 0 ≤ qty →
      (Stores s.r.type → dst = true) → mcsread s src qty dst = some (t, s', v) → t ≠ .invalid → Reads s'

theorem Keeps.greeting {r : Mcseri Mccevt Mcctyp} (h : Keeps r) (ht : r.type = .name) : .greeting = r.evt := by
  have howns := h.owns
  rw [ht] at howns
  cases he : r.evt <;> rw [he] at howns <;> first | rfl | exact howns.elim

theorem keeps_fresh (pv : Int) : Keeps (fresh pv).r := ⟨trivial, by simp [Strings, fresh, default]⟩

/-! ### One call -/

theorem keeps_rdone (r : Mcseri Mccevt Mcctyp) : Keeps (rdone r) := ⟨trivial, by simp [Strings, rdone]⟩

theorem keeps_tchng {r : Mcseri Mccevt Mcctyp} {e : Mccevt} (t : Mcctyp) (he : r.evt = e) (howns : Owns e t) (ht : t ≠ .evtno)
    (hrem : Strings t → 1 ≤ r.rem ∧ r.rem ≤ MCSTRLEN) : Keeps (tchng r t) := by
  rw [tchng, if_neg ht]
  exact ⟨he ▸ howns, hrem⟩

theorem keeps_tchngs {r : Mcseri Mccevt Mcctyp} {e : Mccevt} (t : Mcctyp) (he : r.evt = e) (howns : Owns e t)
    (ht : t ≠ .evtno) : Keeps (tchngs r t) :=
  keeps_tchng t he howns ht fun _ => ⟨by simp [MCSTRLEN], le_rfl⟩

/-- The serializer when `k` more bytes of a string were read: the next type when nothing remains. -/
def took (next : Int → Mcseri Mccevt Mcctyp → Mcseri Mccevt Mcctyp) (s : Mcx) (k : Int) : Mcseri Mccevt Mcctyp :=
  if 0 = s.r.rem - k then next s.curpv { s.r with rem := s.r.rem - k } else { s.r with rem := s.r.rem - k }

theorem rctString_eq {next : Int → Mcseri Mccevt Mcctyp → Mcseri Mccevt Mcctyp} {s : Mcx} {src : Ptr} {qty : Int} {dst : Bool} :
    rctString next s src qty dst = some ⟨min qty s.r.rem, { s with r := took next s (min qty s.r.rem) },
      if dst then some (.str (mcopy_ src (min qty s.r.rem))) else none⟩ := by
  cases dst <;> rfl

theorem rctString_keeps {next : Int → Mcseri Mccevt Mcctyp → Mcseri Mccevt Mcctyp} {s : Mcx} {src : Ptr} {qty : Int}
    {dst : Bool} (h : Keeps s.r) (hstr : Strings s.r.type) (hqty : 0 ≤ qty)
    (hnext : ∀ r : Mcseri Mccevt Mcctyp, r.evt = s.r.evt → Keeps (next s.curpv r)) :
    ∃ o, rctString next s src qty dst = some o ∧ (o.ctx.r.type = .invalid ∨ Keeps o.ctx.r) := by
  have hrem := h.rem hstr
  refine ⟨_, rctString_eq, Or.inr ?_⟩
  by_cases hz : 0 = s.r.rem - min qty s.r.rem
  · simp only [took, if_pos hz]
    exact hnext _ rfl
  · simp only [took, if_neg hz]
    exact ⟨h.owns, fun _ => ⟨by simp only; omega, by simp only; omega⟩⟩

/-- A call on a session that keeps its state is defined, and leads to another one or to `MCCTINVALID`. -/
theorem mcsread_keeps (src : Ptr) {s : Mcx} {qty : Int} {dst : Bool} (h : Keeps s.r) (hqty : 0 ≤ qty)
    (hdst : Stores s.r.type → dst = true) :
    ∃ s' v, mcsread s src qty dst = some (s'.r.type, s', v) ∧ (s'.r.type = .invalid ∨ Keeps s'.r) := by
  have hread : ∀ {f : Mcx → Ptr → Int → Bool → Option Rd}, ctrd s.r.type = some f →
      (∃ o, f s src qty dst = some o ∧ (o.ctx.r.type = .invalid ∨ Keeps o.ctx.r)) →
      ∃ s' v, mcsread s src qty dst = some (s'.r.type, s', v) ∧ (s'.r.type = .invalid ∨ Keeps s'.r) := by
    rintro f hf ⟨o, ho, hkeeps⟩
    exact ⟨o.ctx, o.val, by simp only [mcsread, hf, ho, Option.bind_eq_bind, Option.bind_some], hkeeps⟩
  have howns := h.owns
  -- `Owns` leaves ten pairs of an event and a type.
  cases ht : s.r.type <;> cases he : s.r.evt <;> rw [ht, he] at howns <;> (try exact howns.elim) <;>
    refine hread (by rw [ht]; rfl) ?_
  case evtno.nothing =>
    obtain rfl := hdst (Or.inl ht)
    simp only [rctEventNumber]
    split
    · exact ⟨_, rfl, Or.inr h⟩
    · refine ⟨_, rfl, ?_⟩
      rcases hc : cedecode (src 0).toNat
      case nothing => exact Or.inl rfl
      case invalid => exact Or.inl rfl
      all_goals exact Or.inr ⟨trivial, by simp [Strings, ten]⟩
  case version.greeting =>
    simp only [rctVersion]
    split
    · exact ⟨_, rfl, Or.inr h⟩
    · refine ⟨_, rfl, Or.inr ?_⟩
      split
      · exact keeps_tchngs .name he trivial (by decide)
      · exact keeps_tchng (r := { s.r with rem := MCSTRLEN - 1 }) .name he trivial (by decide) fun _ =>
          ⟨by simp [MCSTRLEN], by simp [MCSTRLEN]⟩
  case name.greeting =>
    refine rctString_keeps h (Or.inl ht) hqty fun r hr => ?_
    split
    · exact keeps_rdone r
    · exact keeps_tchngs .pass (hr.trans he) trivial (by decide)
  case pass.greeting =>
    refine rctString_keeps h (Or.inr (Or.inl ht)) hqty fun r hr => ?_
    split
    · exact keeps_rdone r
    · exact keeps_tchng .cflgs (hr.trans he) trivial (by decide) (by simp [Strings])
  case msg.chatmsg => exact rctString_keeps h (Or.inr (Or.inr ht)) hqty fun r _ => keeps_rdone r
  case blkch.blkedit =>
    obtain rfl := hdst (Or.inr (Or.inl ht))
    simp only [rctBlockChange]
    split
    · exact ⟨_, rfl, Or.inr h⟩
    · exact ⟨_, rfl, Or.inr (keeps_rdone _)⟩
  case actrstat.plyrstat =>
    obtain rfl := hdst (Or.inr (Or.inr ht))
    simp only [rctActorState]
    split
    · exact ⟨_, rfl, Or.inr h⟩
    · exact ⟨_, rfl, Or.inr (keeps_rdone _)⟩
  case actrno.plyrstat =>
    simp only [rctActorNumber, he, ctup]
    split
    · exact ⟨_, rfl, Or.inr h⟩
    · exact ⟨_, rfl, Or.inr (keeps_tchng .actrstat he trivial (by decide) (by simp [Strings]))⟩
  case actrno.chatmsg =>
    simp only [rctActorNumber, he, ctup]
    split
    · exact ⟨_, rfl, Or.inr h⟩
    · exact ⟨_, rfl, Or.inr (keeps_tchngs .msg he trivial (by decide))⟩
  case cflgs.greeting =>
    simp only [rctClientFlags]
    split
    · exact ⟨_, rfl, Or.inr h⟩
    · exact ⟨_, rfl, Or.inr (keeps_rdone _)⟩

/-- The protocol version after a call: a call changes it at the version of a greeting. -/
def readpv (s : Mcx) (src : Ptr) (qty : Int) : Int :=
  if s.r.type = .version ∧ mcctlen s .version ≤ qty then if 32 > src 0 then (src 0).toNat else 0 else s.curpv

/-- A call answers with the type it leaves, and changes the version and the reader only. -/
theorem mcsread_frame {s s' : Mcx} {src : Ptr} {qty : Int} {dst : Bool} {t : Mcctyp} {v : Option Val}
    (h : mcsread s src qty dst = some (t, s', v)) : t = s'.r.type ∧ s'.w = s.w ∧ s'.curpv = readpv s src qty := by
  have hread : ∀ {f : Mcx → Ptr → Int → Bool → Option Rd}, ctrd s.r.type = some f →
      (∀ o, f s src qty dst = some o → o.ctx.w = s.w ∧ o.ctx.curpv = readpv s src qty) →
      t = s'.r.type ∧ s'.w = s.w ∧ s'.curpv = readpv s src qty := by
    intro f hf hframe
    simp only [mcsread, hf, Option.bind_eq_bind, Option.bind_some, Option.bind_eq_some_iff, Option.some.injEq,
      Prod.mk.injEq] at h
    obtain ⟨o, ho, rfl, rfl, rfl⟩ := h
    exact ⟨rfl, hframe o ho⟩
  have hkeep : s.r.type ≠ .version → readpv s src qty = s.curpv := fun hne => if_neg fun h => hne h.1
  cases ht : s.r.type
  case invalid => simp [mcsread, ht, ctrd] at h
  case version =>
    refine hread (by rw [ht]; rfl) fun o ho => ?_
    simp only [rctVersion] at ho
    by_cases hshort : mcctlen s .version > qty
    · rw [if_pos hshort] at ho
      cases ho
      exact ⟨rfl, (if_neg fun h => absurd h.2 (by omega)).symm⟩
    · rw [if_neg hshort] at ho
      cases ho
      have hpv : readpv s src qty = if 32 > src 0 then ((src 0).toNat : Int) else 0 := if_pos ⟨ht, by omega⟩
      rw [hpv]
      split <;> exact ⟨rfl, rfl⟩
  case name | msg | pass =>
    refine hread (by rw [ht]; rfl) fun o ho => ?_
    rw [hkeep (by rw [ht]; decide)]
    rcases Option.some.inj (rctString_eq.symm.trans ho) with rfl
    exact ⟨rfl, rfl⟩
  case actrno =>
    refine hread (by rw [ht]; rfl) fun o ho => ?_
    rw [hkeep (by rw [ht]; decide)]
    simp only [rctActorNumber, Option.bind_eq_bind] at ho
    split at ho
    · cases ho
      exact ⟨rfl, rfl⟩
    · cases hup : ctup s.r.evt <;> rw [hup] at ho <;> cases ho
      exact ⟨rfl, rfl⟩
  all_goals
    refine hread (by rw [ht]; rfl) fun o ho => ?_
    rw [hkeep (by rw [ht]; decide)]
    simp only [rctEventNumber, rctBlockChange, rctActorState, rctClientFlags] at ho
    split_ifs at ho <;> cases ho <;> exact ⟨rfl, rfl⟩

/-! ### Every run -/

theorem reads_keeps {s : Mcx} (h : Reads s) : Keeps s.r := by
  induction h with
  | reset s₀ hmem =>
    rw [mcreset_one, List.mem_singleton] at hmem
    exact hmem ▸ keeps_fresh _
  | read src qty dst _ hqty hdst hread ht ih =>
    obtain ⟨s', v, hread', hkeeps⟩ := mcsread_keeps src ih hqty hdst
    obtain ⟨rfl, rfl, -⟩ : _ = s'.r.type ∧ _ = s' ∧ _ = v := by simpa using Option.some.inj (hread.symm.trans hread')
    exact hkeeps.resolve_left ht

/-- The state of the reader between two calls, until a call returns `MCCTINVALID`. -/
theorem mcsread_state (s : Mcx) (h : Reads s) :
    (0 ≤ s.r.type.code ∧ s.r.type.code ≤ 8) ∧
    (s.r.type = .evtno ↔ s.r.evt = 0) ∧
    (s.r.type = .actrno → (s.r.evt = .plyrstat ∨ s.r.evt = .chatmsg) ∧ ctup s.r.evt ≠ none) ∧
    (s.r.type = .version ∨ s.r.type = .name ∨ s.r.type = .pass ∨ s.r.type = .cflgs → s.r.evt = .greeting) ∧
    (s.r.type = .blkch → s.r.evt = .blkedit) ∧
    (s.r.type = .actrstat → s.r.evt = .plyrstat) ∧
    (s.r.type = .msg → s.r.evt = .chatmsg) ∧
    (s.r.type = .name ∨ s.r.type = .pass ∨ s.r.type = .msg → 1 ≤ s.r.rem ∧ s.r.rem ≤ 64) ∧
    ∀ (src : Ptr) (qty : Int) (dst : Bool), 0 ≤ qty → (Stores s.r.type → dst = true) → mcsread s src qty dst ≠ none := by
  have hk := reads_keeps h
  have howns := hk.owns
  have hdef : ∀ (src : Ptr) (qty : Int) (dst : Bool), 0 ≤ qty → (Stores s.r.type → dst = true) →
      mcsread s src qty dst ≠ none := by
    intro src qty dst hqty hdst
    obtain ⟨s', v, hread, -⟩ := mcsread_keeps src hk hqty hdst
    simp [hread]
  have hrem : s.r.type = .name ∨ s.r.type = .pass ∨ s.r.type = .msg → 1 ≤ s.r.rem ∧ s.r.rem ≤ 64 := hk.rem
  refine ⟨?_, ?_, ?_, ?_, ?_, ?_, ?_, hrem, hdef⟩ <;> cases ht : s.r.type <;> cases he : s.r.evt <;> rw [ht, he] at howns <;>
    first | exact howns.elim | simp [Mcctyp.code, ctup]

/-- After the number of a greeting the version is next. -/
theorem mcsread_state_greeting : ∃ s, Reads s ∧ s.r.type = .version ∧
    (s.r.type = .version ∨ s.r.type = .name ∨ s.r.type = .pass ∨ s.r.type = .cflgs → s.r.evt = .greeting) := by
  have h : Reads { fresh 7 with r := ⟨0, .greeting, .version⟩ } :=
    .read (fun _ => 0) 1 true (.reset default (List.mem_singleton_self _)) (by decide)
      (fun _ => rfl) (rfl : mcsread (fresh 7) _ 1 true = some (.version, _, some (.evt .greeting))) (by decide)
  exact ⟨_, h, rfl, (mcsread_state _ h).2.2.2.1⟩

end ClassicX
