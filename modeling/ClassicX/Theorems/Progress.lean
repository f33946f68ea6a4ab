import ClassicX.Theorems.Serving

/-! The version of a session, and whether the loop goes on reading. A greeting with a version of 8 to 31 takes the
session past the versions that the lengths are known of, and the end of the input in the middle of a version 0
name is never noticed; otherwise every iteration reads. -/

namespace ClassicX
open Runs (Run Always)

/-! ### Lengths -/

def Known (curpv : Int) : Prop := 0 ≤ curpv ∧ curpv ≤ MCPVMAX

theorem known_zero : Known 0 := ⟨le_rfl, by decide⟩

theorem mcctlen_pos {s : Mcx} {ct : Mcctyp} (h : Known s.curpv) (hct : ct ≠ .invalid) : 1 ≤ mcctlen s ct := by
  rw [mcctlen, if_pos h.2]
  split
  · rename_i hname
    rw [← hname.2.2]
    decide
  · cases ct <;> first | exact absurd rfl hct | decide

theorem mcctlen_version {s : Mcx} (h : Known s.curpv) : mcctlen s .version = 1 := by
  rw [mcctlen, if_pos h.2, if_neg (by simp)]
  rfl

/-- A call keeps the version known, unless it reads one that is not. -/
theorem known_readpv {s : Mcx} (src : Ptr) (qty : Int) (h : Known s.curpv) :
    Known (readpv s src qty) ↔ ¬(s.r.type = .version ∧ 1 ≤ qty ∧ 8 ≤ src 0 ∧ src 0 < 32) := by
  rw [readpv, mcctlen_version h]
  by_cases hver : s.r.type = .version ∧ 1 ≤ qty
  · rw [if_pos hver]
    have hlt : (src 0 < 32) ↔ (src 0).toNat < 32 := UInt8.lt_iff_toNat_lt
    have hle : (8 ≤ src 0) ↔ 8 ≤ (src 0).toNat := UInt8.le_iff_toNat_le
    by_cases hb : 32 > src 0
    · rw [if_pos hb, Known, MCPVMAX]
      constructor
      · rintro ⟨-, hle'⟩ ⟨-, -, h8, -⟩
        rw [hle] at h8
        omega
      · intro hno
        have : ¬8 ≤ (src 0).toNat := fun h8 => hno ⟨hver.1, hver.2, hle.mpr h8, hb⟩
        omega
    · rw [if_neg hb]
      exact ⟨fun _ h => hb h.2.2.2, fun _ => ⟨le_rfl, by decide⟩⟩
  · rw [if_neg hver]
    exact ⟨fun _ h => hver ⟨h.1, h.2.1⟩, fun _ => h⟩

/-! ### Sessions -/

/-- A call of `mcsread`, with what it answers. -/
structure ReadCall where
  s : Mcx
  src : Ptr
  qty : Int
  dst : Bool
  t : Mcctyp
  s' : Mcx
  v : Option Val

/-- Calls of `mcsread` until one answers `MCCTINVALID`. -/
def mcsread.calls : Runs.System Mcx ReadCall where
  pre c := c.s
  post c := c.s'
  Ok c := c.s.r.type ≠ .invalid ∧ 0 ≤ c.qty ∧ (Stores c.s.r.type → c.dst = true) ∧
    mcsread c.s c.src c.qty c.dst = some (c.t, c.s', c.v)

/-- The version is known, and the type that the call answers with has a length. -/
def ReadCall.Bounded (c : ReadCall) : Prop := Known c.s'.curpv ∧ (c.t ≠ .invalid → 1 ≤ mcctlen c.s' c.t)

/-- The call reads a version from 8 to 31. -/
def ReadCall.Strange (c : ReadCall) : Prop := c.s.r.type = .version ∧ 1 ≤ c.qty ∧ 8 ≤ c.src 0 ∧ c.src 0 < 32

theorem calls_bounded_iff {s₀ s : Mcx} {h : List ReadCall} (hs₀ : Known s₀.curpv) (hrun : Run mcsread.calls s₀ h s) :
    Always (fun _ c => c.Bounded) h ↔ Always (fun _ c => ¬c.Strange) h := by
  have hiff : ∀ c : ReadCall, Known c.s.curpv → mcsread.calls.Ok c → (Known c.s'.curpv ↔ ¬c.Strange) := by
    rintro c hknown ⟨-, -, -, hread⟩
    rw [(mcsread_frame hread).2.2]
    exact known_readpv c.src c.qty hknown
  refine hrun.always_iff (fun _ s => Known s.curpv) hs₀ (fun _ c hknown hok hk => (hiff c hknown hok).mpr hk)
    fun _ c hknown hok => ?_
  rw [← hiff c hknown hok, ReadCall.Bounded]
  exact ⟨fun h => h.1, fun h => ⟨h, mcctlen_pos h⟩⟩

/-! ### The loop -/

/-- The iteration asks for at least one byte, leaves a known version, and does not go on unless it has read. -/
def Iter.Progresses (t : Iter) : Prop :=
  1 ≤ mcctlen t.w.z.session t.ct ∧ Known t.w'.z.session.curpv ∧
    (t.nxt ≠ .invalid → t.w'.stdin.rest.length < t.w.stdin.rest.length)

/-- The iteration reads a version from 8 to 31, or meets the end of the input in a version 0 name. -/
def Iter.Strange (t : Iter) : Prop :=
  t.ct = .version ∧ (∃ b ∈ t.w.stdin.rest.head?, 8 ≤ b ∧ b < 32) ∨
    t.ct = .name ∧ t.w.z.session.curpv = 0 ∧ t.w.stdin.rest = []

/-- The end of the input is noticed, but in a version 0 name. -/
theorem progresses_end {t : Iter} (hs : Serves t.ct t.w) (hknown : Known t.w.z.session.curpv) (hok : start.loop.Ok t)
    (hrest : t.w.stdin.rest = []) : t.Progresses ↔ ¬t.Strange := by
  have hasks : 1 ≤ t.asks := mcctlen_pos hknown hok.1
  have hend : (input t.w.stdin t.asks).1 = -1 := input_end hrest (Or.inr (by omega))
  have hqty := t.qty_eq
  by_cases hshort : t.asks = MCSTRLEN - 1
  · obtain ⟨hpv, -, hct⟩ := mcctlen_short.mp hshort
    rw [hend, if_pos hshort] at hqty
    refine ⟨fun ⟨_, _, hless⟩ => ?_, fun h => absurd (Or.inr ⟨hct.symm, hpv.symm, hrest⟩) h⟩
    rcases Iter.cases hs hok with ⟨hneg, -⟩ | ⟨-, htype, s, dst, v, ps, hread, -, ho⟩
    · omega
    · have hnxt : t.nxt ≠ .invalid := by
        rcases ho.next with hnxt | ⟨-, hnxt⟩
        · rw [hnxt]
          exact mcsread_name (htype.trans hct.symm) hread
        · rw [hnxt]
          decide
      have hless := hless hnxt
      rw [hrest] at hless
      exact absurd hless (Nat.not_lt_zero _)
  · rw [hend, if_neg hshort] at hqty
    rcases Iter.cases hs hok with ⟨-, hnxt, hw⟩ | ⟨hpos, -⟩
    · have hprogress : t.Progresses := by
        refine ⟨hasks, ?_, fun h => absurd hnxt h⟩
        rw [hw, t.rd_z]
        exact hknown
      refine ⟨fun _ => ?_, fun _ => hprogress⟩
      rintro (⟨-, b, hb, -⟩ | ⟨hct, hpv, -⟩)
      · rw [hrest] at hb
        cases hb
      · have htype : t.w.z.session.r.type = .name := by
          rcases hs.sync hok.1 with h | ⟨h, -⟩
          · exact h.trans hct
          · rw [hct] at h
            cases h
        exact hshort (mcctlen_short.mpr ⟨hpv.symm, (hs.keeps hok.1).greeting htype, hct.symm⟩)
    · omega

/-- A field of one byte goes to the start of `in`. -/
theorem cloop_read_byte {w : World} {ct : Mcctyp} {b : UInt8} (h : mcctlen w.z.session ct = 1)
    (hb : b ∈ w.stdin.rest.head?) : (cloop.read w ct).2.inbuf 0 = b := by
  obtain ⟨bs, hbs⟩ := List.head?_eq_some_iff.mp hb
  have hne : MCSTRLEN - 1 ≠ 1 := by decide
  simp only [cloop.read, h, if_neg hne, input, hbs]
  rfl

theorem progresses_more {t : Iter} (hs : Serves t.ct t.w) (hknown : Known t.w.z.session.curpv) (hok : start.loop.Ok t)
    (hrest : t.w.stdin.rest ≠ []) : t.Progresses ↔ ¬t.Strange := by
  have hasks : 1 ≤ t.asks := mcctlen_pos hknown hok.1
  obtain ⟨hsome, hshorter⟩ := input_shorter hrest (by omega : 0 < t.asks)
  have hqty : 1 ≤ t.qty := by
    rw [t.qty_eq]
    split <;> omega
  obtain ⟨-, htype, s, dst, v, hread, -, -, hcurpv, hstdin⟩ := (Iter.called hs hok).resolve_left fun h => by omega
  have hpv := (mcsread_frame hread).2.2
  have hbyte : t.ct = .version → t.w.stdin.rest.head? = some (t.rd.inbuf 0) := by
    intro hct
    have hone : t.asks = 1 := by
      rw [Iter.asks, hct, mcctlen_version hknown]
    obtain ⟨b, bs, hb⟩ := List.exists_cons_of_ne_nil hrest
    have hhead : t.w.stdin.rest.head? = some b := by
      rw [hb]
      rfl
    have hread : t.rd.inbuf 0 = b := cloop_read_byte hone hhead
    rw [hhead, hread]
  have hstrange : t.Strange ↔ t.w.z.session.r.type = .version ∧ 1 ≤ t.qty ∧ 8 ≤ t.rd.inbuf 0 ∧ t.rd.inbuf 0 < 32 := by
    rw [htype]
    constructor
    · rintro (⟨hct, b, hb, hrange⟩ | ⟨-, -, hnil⟩)
      · rw [hbyte hct] at hb
        cases hb
        exact ⟨hct, hqty, hrange⟩
      · exact absurd hnil hrest
    · rintro ⟨hct, -, hrange⟩
      exact Or.inl ⟨hct, _, hbyte hct, hrange⟩
  rw [hstrange, ← known_readpv _ _ hknown, ← hpv, ← hcurpv, Iter.Progresses, hstdin]
  exact ⟨fun h => h.2.1, fun h => ⟨hasks, h, fun _ => hshorter⟩⟩

theorem progresses_iff {t : Iter} (hs : Serves t.ct t.w) (hknown : Known t.w.z.session.curpv) (hok : start.loop.Ok t) :
    t.Progresses ↔ ¬t.Strange := by
  by_cases hrest : t.w.stdin.rest = []
  · exact progresses_end hs hknown hok hrest
  · exact progresses_more hs hknown hok hrest

theorem starts_progress_iff {ldefault : Ptr} {ldsize : Int16} {lddim : Mcvec} {stdin : List UInt8} {h : List Iter}
    {s : Mcctyp × World} (hrun : Starts ldefault ldsize lddim stdin h s) :
    Always (fun _ t => t.Progresses) h ↔ Always (fun _ t => ¬t.Strange) h := by
  refine hrun.always_iff (fun _ s => Serves s.1 s.2 ∧ Known s.2.z.session.curpv)
    ⟨csetup_serves ldefault ldsize lddim stdin, known_zero⟩ (fun _ t hinv hok hk => ?_)
    fun _ t hinv hok => progresses_iff hinv.1 hinv.2 hok
  exact ⟨step_serves hinv.1 hok, ((progresses_iff hinv.1 hinv.2 hok).mpr hk).2.1⟩

/-- Versions stay known and the loop goes on reading exactly where no version from 8 to 31 is read and the input does
    not end in a version 0 name. -/
theorem progress_iff (s₀ : Mcx) (pv : Int) (hlo : 0 ≤ pv) (hhi : pv ≤ MCPVMAX) (ldefault : Ptr) (ldsize : Int16)
    (lddim : Mcvec) (stdin : List UInt8) :
    (∀ (s s' : Mcx) (h : List ReadCall), s ∈ (mcreset [s₀] 1 pv).1 → Run mcsread.calls s h s' →
      (Always (fun _ c => c.Bounded) h ↔ Always (fun _ c => ¬c.Strange) h)) ∧
    ∀ (h : List Iter) (s : Mcctyp × World), Starts ldefault ldsize lddim stdin h s →
      (Always (fun _ t => t.Progresses) h ↔ Always (fun _ t => ¬t.Strange) h) := by
  refine ⟨fun s s' h hs hrun => ?_, fun _ _ hrun => starts_progress_iff hrun⟩
  rw [mcreset_one, List.mem_singleton] at hs
  subst hs
  exact calls_bounded_iff ⟨hlo, hhi⟩ hrun

theorem progress_iff_greeting :
    (∃ h : List ReadCall, h.length = 1 ∧ (Always (fun _ c => c.Bounded) h ↔ Always (fun _ c => ¬c.Strange) h)) ∧
    ∃ h : List Iter, h.length = 2 ∧ (Always (fun _ t => t.Progresses) h ↔ Always (fun _ t => ¬t.Strange) h) := by
  have hok : mcsread.calls.Ok ⟨fresh 7, fun _ => 0, 1, true, .version,
      { fresh 7 with r := ⟨0, .greeting, .version⟩ }, some (.evt .greeting)⟩ := ⟨by decide, by decide, fun _ => rfl, rfl⟩
  obtain ⟨hcalls, hstarts⟩ := progress_iff default 7 (by decide) (by decide) (fun _ => 0) 0 {} [0, 7]
  exact ⟨⟨_, rfl, hcalls (fresh 7) _ _ (List.mem_singleton_self _) (Run.next (S := mcsread.calls) _ .start hok)⟩,
    ⟨_, rfl, hstarts _ _ (starts_steps (fun _ => 0) 0 {} [0, 7] 2)⟩⟩

/-- A greeting with version 8: the session has no length for its name, and the loop goes on without reading. -/
theorem greeting_stalls : ∃ (h : List Iter) (w w' : World), Starts (fun _ => 0) 0 {} [0, 8] h (.name, w) ∧
    w.z.session.curpv = 8 ∧ mcctlen w.z.session .name = 0 ∧ cloop w .name = some (.name, w') ∧ w'.stdin = w.stdin :=
  ⟨_, _, _, starts_steps (fun _ => 0) 0 {} [0, 8] 2, rfl, rfl, rfl, rfl⟩

end ClassicX
